import StepLoom.Text.Blank

/-!
# Digits of all scripts

Many scripts have ten decimal digits of their own. `plainNumeral` writes a number in any of them
with the digits `0` to `9`, and blanks outside of ASCII as spaces, so that a reader of numbers need
only know ASCII.
-/

namespace StepLoom.Text

/-- The code points of the digit zero, one for each script; the other nine digits follow it. -/
def zeros : List Nat :=
  [48, 1632, 1776, 1984, 2406, 2534, 2662, 2790, 2918, 3046, 3174, 3302, 3430, 3558, 3664, 3792,
   3872, 4160, 4240, 6112, 6160, 6470, 6608, 6784, 6800, 6992, 7088, 7232, 7248, 42528, 43216,
   43264, 43472, 43504, 43600, 44016, 65296, 66720, 68912, 69734, 69872, 69942, 70096, 70384,
   70736, 70864, 71248, 71360, 71472, 71904, 72016, 72784, 73040, 73120, 92768, 92864, 93008,
   120782, 120792, 120802, 120812, 120822, 123200, 123632, 125264, 130032]

/-- What a character counts as a decimal digit. -/
def digitValue? (c : Char) : Option Nat :=
  (zeros.find? fun z => decide (z ≤ c.toNat ∧ c.toNat < z + 10)).map (c.toNat - ·)

/-- A character of ASCII for a digit of any script or a blank of any kind; ASCII itself stays. -/
def plainNumeralChar (c : Char) : Char :=
  if c.toNat < 128 then c
  else if isBlank c then ' '
  else match digitValue? c with
    | some d => Char.ofNat (48 + d)
    | none => c

def plainNumeral (cs : List Char) : List Char := cs.map plainNumeralChar

/-- The blanks that may stand around a number: spaces, tabs and what ends a line or a page. -/
def isNumeralBlank (c : Char) : Bool := c == ' ' || decide (9 ≤ c.toNat ∧ c.toNat ≤ 13)

/-- The numeral in plain characters, without the blanks around it. -/
def bareNumeral (cs : List Char) : List Char :=
  dropEndWhile isNumeralBlank ((plainNumeral cs).dropWhile isNumeralBlank)

end StepLoom.Text
