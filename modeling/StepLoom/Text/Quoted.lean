import StepLoom.Text.LetterCase
import StepLoom.Text.Printable.Table
import StepLoom.Text.Surrogate

/-!
# Quoted text

How a text is written inside a list or an error message: between quotes, with a backslash before the
quote and the backslash, short escapes for tab and line ends, and numeric escapes for every other
character that is not printable. Single quotes are used unless the text holds single quotes only.
-/

namespace StepLoom.Text

def isPrintable (c : Char) : Bool :=
  if c.toNat < 127 then decide (32 ≤ c.toNat) else !inRanges unprintableRanges c.toNat

/-- The last `width` hexadecimal digits, in lower case. -/
def hexDigits (width n : Nat) : List Char :=
  let ds := Nat.toDigits 16 n
  List.replicate (width - ds.length) '0' ++ ds

/-- The quote for a text: double only when the text has a single quote and no double one. -/
def quoteFor (cs : List Char) : Char :=
  if cs.contains '\'' && !cs.contains '"' then '"' else '\''

def escapeNumeric (n : Nat) : List Char :=
  if n < 256 then '\\' :: 'x' :: hexDigits 2 n
  else if n < 65536 then '\\' :: 'u' :: hexDigits 4 n
  else '\\' :: 'U' :: hexDigits 8 n

/-- One character between quotes; `printable` says which ones stand for themselves. -/
def escapeChar (printable : Char → Bool) (quote c : Char) : List Char :=
  if c = quote ∨ c = '\\' then ['\\', c]
  else if c = '\t' then ['\\', 't']
  else if c = '\n' then ['\\', 'n']
  else if c = '\r' then ['\\', 'r']
  else if printable c then [c]
  else escapeNumeric (codeOf c)

def quote (s : String) : String :=
  let cs := s.toList
  let q := quoteFor cs
  String.ofList (q :: cs.flatMap (escapeChar isPrintable q) ++ [q])

/-- Bytes are quoted like the characters of their codes, those outside ASCII escaped. -/
def quoteBytes (bs : List UInt8) : String :=
  let cs := bs.map fun b => Char.ofNat b.toNat
  let q := quoteFor cs
  String.ofList ('b' :: q :: cs.flatMap
    (escapeChar (fun c => decide (32 ≤ c.toNat ∧ c.toNat < 127)) q) ++ [q])

/-- A list of texts, as it is written in an error message. -/
def quoteAll (texts : List String) : String := "[" ++ ", ".intercalate (texts.map quote) ++ "]"

end StepLoom.Text
