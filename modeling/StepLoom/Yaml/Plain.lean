import StepLoom.Number.Reading
import StepLoom.Yaml.Moment

/-!
# What plain text stands for

A plain YAML scalar is a null, a boolean, a number, a moment or a string, depending on its text
alone. `Tag.ofPlain` tells which, after the rules of YAML 1.1: integers in four bases and in base
sixty, underscores between digits, floats only with a point. The two dialects differ in which words
are booleans; in workflows `on`, `yes`, `off` and `no` are strings.

A quoted text can be treated like a plain one. It may end in a line feed, which does not count.
-/

namespace StepLoom

namespace Yaml

inductive Dialect where
  /-- Only spellings of `true` and `false` are booleans. -/
  | workflow
  /-- All boolean words of YAML 1.1. -/
  | full
deriving DecidableEq, Repr

/-- The kinds of nodes. `default` is the key `=`, which stands for no data, and `other` any kind
that is not known. -/
inductive Tag where
  | null
  | bool
  | int
  | float
  | timestamp
  | binary
  | str
  | seq
  | map
  | omap
  | pairs
  | set
  | merge
  | default
  | other
deriving DecidableEq, Repr

/-! ## Booleans -/

def trueWords : List String := ["true", "True", "TRUE"]
def falseWords : List String := ["false", "False", "FALSE"]
def yesWords : List String := ["yes", "Yes", "YES", "on", "On", "ON"]
def noWords : List String := ["no", "No", "NO", "off", "Off", "OFF"]

def isBoolWord (d : Dialect) (s : String) : Bool :=
  (trueWords ++ falseWords).contains s
    || d == .full && (yesWords ++ noWords).contains s

/-! ## Numbers -/

def isDigitOrBar (c : Char) : Bool := c.isDigit || c == '_'

/-- Starts with a digit and goes on with digits and underscores. -/
def isDigits : List Char → Bool
  | [] => false
  | c :: rest => c.isDigit && rest.all isDigitOrBar

/-- One of `0` to `59`, in one or two digits. -/
def isSixtieth : List Char → Bool
  | [c] => c.isDigit
  | [c, d] => decide ('0' ≤ c ∧ c ≤ '5') && d.isDigit
  | _ => false

def isHexOrBar (c : Char) : Bool :=
  isDigitOrBar c || decide ('a' ≤ c ∧ c ≤ 'f') || decide ('A' ≤ c ∧ c ≤ 'F')

/-- Digits from `1` on, then places of base sixty after colons. -/
def isSexagesimal (lead : List Char → Bool) (cs : List Char) : Bool :=
  match Text.splitOnChar ':' cs with
  | first :: place :: more => lead first && (place :: more).all isSixtieth
  | _ => false

/-- An unsigned integer, in one of the written bases. -/
def isNatural : List Char → Bool
  | ['0'] => true
  | '0' :: 'b' :: c :: rest => (c :: rest).all fun c => c == '0' || c == '1' || c == '_'
  | '0' :: 'x' :: c :: rest => (c :: rest).all isHexOrBar
  | '0' :: c :: rest => (c :: rest).all fun c => decide ('0' ≤ c ∧ c ≤ '7') || c == '_'
  | cs => isDigits cs || isSexagesimal isDigits cs

def isInteger (cs : List Char) : Bool := isNatural (splitSign cs).2

/-- An exponent mark with a sign and digits, or nothing. -/
def isExponent : List Char → Bool
  | [] => true
  | e :: sign :: c :: rest =>
    (e == 'e' || e == 'E') && (sign == '-' || sign == '+') && (c :: rest).all Char.isDigit
  | _ => false

def isExponentMark (c : Char) : Bool := c == 'e' || c == 'E'

/-- What follows the point: digits, and an exponent. -/
def isFraction (cs : List Char) : Bool :=
  (cs.takeWhile fun c => !isExponentMark c).all isDigitOrBar
    && isExponent (cs.dropWhile fun c => !isExponentMark c)

def isFloat (cs : List Char) : Bool :=
  let unsigned := (splitSign cs).2
  match unsigned with
  | '.' :: rest =>
    let word := String.ofList rest
    ["inf", "Inf", "INF"].contains word
      || unsigned.length == cs.length
        && (["nan", "NaN", "NAN"].contains word
          || isDigits (rest.takeWhile fun c => !isExponentMark c) && isFraction rest)
  | _ =>
    match unsigned.dropWhile (· ≠ '.') with
    | _ :: fraction =>
      let whole := unsigned.takeWhile (· ≠ '.')
      isDigits whole && isFraction fraction
        || isSexagesimal isDigits whole && fraction.all isDigitOrBar
    | [] => false

/-! ## The kind of a plain text -/

def isNullWord (s : String) : Bool := ["", "~", "null", "Null", "NULL"].contains s

/-- Words that look like indicators; they are of no kind that is known. -/
def isMarkWord (s : String) : Bool := ["!", "&", "*"].contains s

/-- The kind of a text that is not a line feed alone, without the line feed at its end. -/
def Tag.ofWord (d : Dialect) (s : String) : Tag :=
  let cs := s.toList
  if isNullWord s then .null
  else if isBoolWord d s then .bool
  else if isFloat cs then .float
  else if isInteger cs then .int
  else if Moment.isPlain cs then .timestamp
  else if s = "<<" then .merge
  else if s = "=" then .default
  else if isMarkWord s then .other
  else .str

def Tag.ofPlain (d : Dialect) (s : String) : Tag :=
  if s = "\n" then .str else .ofWord d (String.ofList (dropFinalBreak s.toList))

end Yaml

end StepLoom
