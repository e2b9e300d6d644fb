import StepLoom.Fault
import StepLoom.Number.Reading
import StepLoom.Number.Shortest
import StepLoom.Value

/-!
# Values as text

`Value.text` is a value put into a text: a string stands for itself, everything else is written as
`Value.literal`, the form it has inside a list. What a value refers to around it is written as dots.
A value with an integer of too many digits has no text.
-/

namespace StepLoom

/-- At least `width` digits. -/
def paddedDigits (width n : Nat) : String :=
  let ds := Nat.toDigits 10 n
  String.ofList (List.replicate (width - ds.length) '0' ++ ds)

namespace Date

def text (d : Date) : String :=
  paddedDigits 4 d.year ++ "-" ++ paddedDigits 2 d.month ++ "-" ++ paddedDigits 2 d.day

def arguments (d : Date) : String :=
  toString d.year ++ ", " ++ toString d.month ++ ", " ++ toString d.day

end Date

namespace Timestamp

def zoneText (minutes : Int) : String :=
  (if minutes < 0 then "-" else "+") ++ paddedDigits 2 (minutes.natAbs / 60) ++ ":"
    ++ paddedDigits 2 (minutes.natAbs % 60)

/-- The moment with the given mark between day and time; a zero fraction is left out. -/
def textWith (separator : String) (t : Timestamp) : String :=
  t.date.text ++ separator ++ paddedDigits 2 t.hour ++ ":" ++ paddedDigits 2 t.minute ++ ":"
    ++ paddedDigits 2 t.second
    ++ (if t.microsecond = 0 then "" else "." ++ paddedDigits 6 t.microsecond)
    ++ (match t.zone with | none => "" | some z => zoneText z)

/-- An offset as days, never negative seconds, and nothing that is zero. -/
def offsetArguments (minutes : Int) : String :=
  let days := minutes / 1440
  let seconds := (minutes % 1440) * 60
  ", ".intercalate ((if days = 0 then [] else ["days=" ++ toString days])
    ++ (if seconds = 0 then [] else ["seconds=" ++ toString seconds]))

/-- The parts of the moment; seconds and fraction are left out when they and all after are zero. -/
def arguments (t : Timestamp) : String :=
  let clock := toString t.hour ++ ", " ++ toString t.minute
  let seconds :=
    if t.second = 0 ∧ t.microsecond = 0 then ""
    else if t.microsecond = 0 then ", " ++ toString t.second
    else ", " ++ toString t.second ++ ", " ++ toString t.microsecond
  let zone := match t.zone with
    | none => ""
    | some 0 => ", tzinfo=datetime.timezone.utc"
    | some z => ", tzinfo=datetime.timezone(datetime.timedelta(" ++ offsetArguments z ++ "))"
  t.date.arguments ++ ", " ++ clock ++ seconds ++ zone

end Timestamp

/-- An integer from here on has too many digits for a text. -/
def digitLimit : Nat := Nat.pow 10 maxDigits

namespace Scalar

/-- Whether all integers in a key are short enough for a text. -/
def hasText : Scalar → Bool
  | .int n => decide (n.natAbs < digitLimit)
  | .pair a b => a.hasText && b.hasText
  | _ => true

/-- A scalar as it stands inside a list. -/
def spelling : Scalar → String
  | .null => "None"
  | .bool b => if b then "True" else "False"
  | .int n => toString n
  | .float x => x.text
  | .str s => Text.quote s
  | .date d => "datetime.date(" ++ d.arguments ++ ")"
  | .timestamp t => "datetime.datetime(" ++ t.arguments ++ ")"
  | .bytes bs => Text.quoteBytes bs
  | .pair a b => "(" ++ a.spelling ++ ", " ++ b.spelling ++ ")"

/-- A scalar on its own. -/
def bareSpelling : Scalar → String
  | .str s => s
  | .date d => d.text
  | .timestamp t => t.textWith " "
  | s => s.spelling

end Scalar

namespace Value

mutual

/-- Whether all integers in a value are short enough for a text. -/
def hasText : Value → Bool
  | .scalar s => s.hasText
  | .list items => itemsHaveText items
  | .pair a b => a.hasText && b.hasText
  | .set members => members.all Scalar.hasText
  | .map _ fields => fieldsHaveText fields
  | .ring _ items => itemsHaveText items
  | .again _ => true

def itemsHaveText : List Value → Bool
  | [] => true
  | v :: rest => v.hasText && itemsHaveText rest

def fieldsHaveText : List (Scalar × Value) → Bool
  | [] => true
  | (k, v) :: rest => k.hasText && v.hasText && fieldsHaveText rest

end

/-- The dots for a list or a mapping that is being written already. -/
def dots (isList : Bool) : String := if isList then "[...]" else "\x7b...\x7d"

def bracketed (opening closing : String) (parts : List String) : String :=
  opening ++ ", ".intercalate parts ++ closing

mutual

/-- The form of a value inside a list. `around` holds the marks around it, each with whether it is
of a list. -/
def spelling (around : List (Nat × Bool)) : Value → String
  | .scalar s => s.spelling
  | .list items => bracketed "[" "]" (itemSpellings around items)
  | .pair a b => bracketed "(" ")" [a.spelling around, b.spelling around]
  | .set [] => "set()"
  | .set members => bracketed "\x7b" "\x7d" (members.map Scalar.spelling)
  | .map none fields => bracketed "\x7b" "\x7d" (fieldSpellings around fields)
  | .map (some m) fields =>
    if around.any (·.1 == m) then dots false
    else bracketed "\x7b" "\x7d" (fieldSpellings ((m, false) :: around) fields)
  | .ring m items =>
    if around.any (·.1 == m) then dots true
    else bracketed "[" "]" (itemSpellings ((m, true) :: around) items)
  | .again m => dots (around.any (· == (m, true)))

def itemSpellings (around : List (Nat × Bool)) : List Value → List String
  | [] => []
  | v :: rest => v.spelling around :: itemSpellings around rest

def fieldSpellings (around : List (Nat × Bool)) : List (Scalar × Value) → List String
  | [] => []
  | (k, v) :: rest => (k.spelling ++ ": " ++ v.spelling around) :: fieldSpellings around rest

end

/-- A value as it stands inside a list. -/
def literal (v : Value) : Except Fault String :=
  if v.hasText then .ok (v.spelling []) else .error (.tooManyDigits none)

/-- A value put into a text. -/
def text : Value → Except Fault String
  | .scalar s => if s.hasText then .ok s.bareSpelling else .error (.tooManyDigits none)
  | v => v.literal

end Value

end StepLoom
