import StepLoom.Number.Reading
import StepLoom.Value.Display

/-!
# Moments in text

A moment is a day, or a day with a time and perhaps an offset from universal time.
`Moment.read?` reads one from a text, and `Moment.isPlain` tells whether a plain text stands for
one: a day alone then needs two digits for month and day.
-/

namespace StepLoom

namespace Yaml

/-- A moment, or only a day. -/
inductive Moment where
  | day (d : Date)
  | time (t : Timestamp)

/-- The text without one line feed at its end. -/
def dropFinalBreak (cs : List Char) : List Char :=
  if cs.getLast? = some '\n' then cs.dropLast else cs

def isSpaceOrTab (c : Char) : Bool := c == ' ' || c == '\t'

namespace Moment

/-- Between `least` and `most` digits at the front of a text, as many as there are. -/
def takeNumber? (least most : Nat) (cs : List Char) : Option (Nat × List Char) :=
  let digits := (cs.take most).takeWhile Char.isDigit
  if digits.length < least then none else some (digitsValue digits, cs.drop digits.length)

def takeChar? (c : Char) : List Char → Option (List Char)
  | d :: rest => if d = c then some rest else none
  | [] => none

/-- Six digits of a fraction of a second, zeros put behind it. -/
def microseconds (digits : List Char) : Nat :=
  digitsValue ((digits ++ List.replicate 6 '0').take 6)

/-- The offset at the end of a moment: none, `Z`, or hours and perhaps minutes. -/
def zone? (cs : List Char) : Option (Option Int) :=
  match cs with
  | [] => some none
  | _ =>
    match cs.dropWhile isSpaceOrTab with
    | ['Z'] => some (some 0)
    | sign :: rest => do
      let (hours, rest) ← takeNumber? 1 2 rest
      let minutes ← match rest with
        | [] => some 0
        | ':' :: rest => match takeNumber? 2 2 rest with
          | some (n, []) => some n
          | _ => none
        | _ => none
      let offset : Int := hours * 60 + minutes
      if sign = '+' then some (some offset) else if sign = '-' then some (some (-offset)) else none
    | [] => none

/-- The time of day after the date: `T` or blanks, then hours, minutes, seconds and so on. -/
def timeOfDay? (date : Date) (cs : List Char) : Option Moment := do
  let rest ← match cs with
    | 'T' :: rest | 't' :: rest => some rest
    | c :: rest => if isSpaceOrTab c then some (rest.dropWhile isSpaceOrTab) else none
    | [] => none
  let (hour, rest) ← takeNumber? 1 2 rest
  let (minute, rest) ← takeNumber? 2 2 (← takeChar? ':' rest)
  let (second, rest) ← takeNumber? 2 2 (← takeChar? ':' rest)
  let (fraction, rest) := match rest with
    | '.' :: rest => (rest.takeWhile Char.isDigit, rest.dropWhile Char.isDigit)
    | _ => ([], rest)
  return .time ⟨date, hour, minute, second, microseconds fraction, ← zone? rest⟩

/-- The moment that is written as a text. -/
def parse? (cs : List Char) : Option Moment := do
  let (year, rest) ← takeNumber? 4 4 cs
  let (month, rest) ← takeNumber? 1 2 (← takeChar? '-' rest)
  let (number, rest) ← takeNumber? 1 2 (← takeChar? '-' rest)
  let date : Date := ⟨year, month, number⟩
  match rest with
  | [] => some (.day date)
  | rest => timeOfDay? date rest

/-- The moment that a text gives; one line feed at its end does not count. -/
def read? (text : List Char) : Option Moment := parse? (dropFinalBreak text)

/-- Whether a plain text stands for a moment. -/
def isPlain (cs : List Char) : Bool :=
  match parse? cs with
  | some (.day _) => cs.length == 10
  | some (.time _) => true
  | none => false

/-- What is wrong with a day of the calendar, if anything is. -/
def dateFlaw? (d : Date) : Option String :=
  if d.year < 1 then some ("year " ++ toString d.year ++ " is out of range")
  else if d.month < 1 ∨ 12 < d.month then some "month must be in 1..12"
  else if d.day < 1 ∨ Date.daysInMonth d.year d.month < d.day then
    some "day is out of range for month"
  else none

/-- What is wrong with a moment, if anything is. -/
def flaw? : Moment → Option String
  | .day d => dateFlaw? d
  | .time t =>
    let zone := t.zone.getD 0
    if 1440 ≤ zone.natAbs then
      some ("offset must be a timedelta strictly between -timedelta(hours=24) and "
        ++ "timedelta(hours=24), not datetime.timedelta("
        ++ Timestamp.offsetArguments zone ++ ").")
    else match dateFlaw? t.date with
      | some flaw => some flaw
      | none =>
        if 23 < t.hour then some "hour must be in 0..23"
        else if 59 < t.minute then some "minute must be in 0..59"
        else if 59 < t.second then some "second must be in 0..59"
        else none

def toScalar : Moment → Scalar
  | .day d => .date d
  | .time t => .timestamp t

end Moment

end Yaml

end StepLoom
