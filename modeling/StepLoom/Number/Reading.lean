import StepLoom.Number.Binary64
import StepLoom.Text.Numeral

/-!
# Reading numbers

`readInt` reads an integer in a given base: an optional sign, perhaps the mark of the base, and at
least one digit. `Binary64.read?` takes an optional sign, digits with at most one point among them,
and an optional exponent; also the names of infinity and of what is not a number. Both accept the
digits of any script and blanks around the number.

An integer in a base that is no power of two is read only up to a number of digits, since reading
takes more than linear time there; the same bound holds for writing.
-/

namespace StepLoom

/-- The value of decimal digits; other characters are passed over. -/
def digitsValue (cs : List Char) : Nat :=
  (cs.filter Char.isDigit).foldl (fun n c => n * 10 + (c.toNat - 48)) 0

/-- The sign in front of a number, and the rest. -/
def splitSign : List Char → Bool × List Char
  | '-' :: rest => (true, rest)
  | '+' :: rest => (false, rest)
  | cs => (false, cs)

/-! ## Integers -/

/-- An integer in base ten has at most so many digits. -/
def maxDigits : Nat := 4300

/-- Why a text is no integer. -/
inductive NoInteger where
  | malformed
  | tooManyDigits (count : Nat)
deriving DecidableEq, Repr

/-- The value of a digit in bases up to sixteen. -/
def digitIn? (base : Nat) (c : Char) : Option Nat :=
  let value? :=
    if c.isDigit then some (c.toNat - 48)
    else if 'a' ≤ c ∧ c ≤ 'f' then some (c.toNat - 87)
    else if 'A' ≤ c ∧ c ≤ 'F' then some (c.toNat - 55)
    else none
  value?.filter (· < base)

/-- The letter that marks a base after a zero. -/
def baseLetter? : Nat → Option Char
  | 2 => some 'b'
  | 8 => some 'o'
  | 16 => some 'x'
  | _ => none

/-- The digits behind the mark of the base, if it is there. -/
def dropBaseMark (base : Nat) : List Char → List Char
  | '0' :: c :: rest => if baseLetter? base = some c.toLower then rest else '0' :: c :: rest
  | cs => cs

/-- Whether reading digits of a base takes more than linear time. -/
def isSlowBase (base : Nat) : Bool := !(base ∈ [2, 4, 8, 16])

/-- The integer that a text gives in a base. -/
def readInt (base : Nat) (cs : List Char) : Except NoInteger Int :=
  let (negative, body) := splitSign (Text.bareNumeral cs)
  let body := dropBaseMark base body
  let digits := (body.map (digitIn? base)).takeWhile Option.isSome
  if isSlowBase base && decide (maxDigits < digits.length) then
    .error (.tooManyDigits digits.length)
  else if digits.isEmpty || digits.length != body.length then .error .malformed
  else
    let n : Nat := digits.foldl (fun n d => n * base + d.getD 0) 0
    .ok (if negative then -(n : Int) else n)

/-! ## Floating-point numbers -/

namespace Binary64

/-- The exponent after the mark: at least one digit, with or without a sign. -/
def readExponent? (cs : List Char) : Option Int :=
  let (negative, digits) := splitSign cs
  if digits.isEmpty || !digits.all Char.isDigit then none
  else some (if negative then -(digitsValue digits : Int) else digitsValue digits)

/-- Digits with at most one point among them. -/
def readPlain? (negative : Bool) (cs : List Char) (exponent : Int) : Option Binary64 :=
  let whole := cs.takeWhile (· ≠ '.')
  let fraction := (cs.dropWhile (· ≠ '.')).drop 1
  if (whole ++ fraction).isEmpty || !(whole ++ fraction).all Char.isDigit then none
  else some (ofDecimal negative (digitsValue (whole ++ fraction)) (exponent - fraction.length))

/-- The number that a text gives. -/
def read? (cs : List Char) : Option Binary64 :=
  let (negative, cs) := splitSign ((Text.bareNumeral cs).map Char.toLower)
  if cs = "inf".toList ∨ cs = "infinity".toList then some (infinity negative)
  else if cs = "nan".toList then some nan
  else
    let mantissa := cs.takeWhile (· ≠ 'e')
    match cs.dropWhile (· ≠ 'e') with
    | [] => readPlain? negative mantissa 0
    | _ :: rest => do readPlain? negative mantissa (← readExponent? rest)

end Binary64

end StepLoom
