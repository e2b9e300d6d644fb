/-!
# Halves of surrogate pairs

An escape in a document can name one half of a surrogate pair, which is a code point and no
character. Such a half is kept in texts as the private character `0x100000` above it, and is written
again as the code point that it stands for.
-/

namespace StepLoom.Text

/-- Where the characters for halves lie above the halves. -/
def halfOffset : Nat := 0x100000

def isHalf (code : Nat) : Bool := decide (0xD800 ≤ code ∧ code ≤ 0xDFFF)

/-- The character that a text holds for a code point. -/
def charOf (code : Nat) : Char := Char.ofNat (if isHalf code then code + halfOffset else code)

/-- The code point that a character of a text stands for. -/
def codeOf (c : Char) : Nat :=
  if isHalf (c.toNat - halfOffset) then c.toNat - halfOffset else c.toNat

/-- Whether a character stands for a half. -/
def isLoneHalf (c : Char) : Bool := isHalf (codeOf c)

end StepLoom.Text
