import StepLoom.Yaml.Plain

/-!
# How a scalar is written

A text may be written plain, in single quotes, in double quotes, or as a literal block. `Look` notes
what in the text speaks against a style, `Look.of` reads it off the text, and `Style.choose` takes
the first style that is not ruled out.
-/

namespace StepLoom

namespace Yaml

/-- The line ends that a scalar may hold. -/
def isBreak (c : Char) : Bool :=
  c == '\n' || c == '\u0085' || c == '\u2028' || c == '\u2029'

def isBlankOrBreak (c : Char) : Bool :=
  c == '\x00' || c == ' ' || c == '\t' || c == '\r' || isBreak c

/-- Characters that may stand in a text as they are. -/
def isOrdinary (c : Char) : Bool :=
  let n := c.toNat
  c == '\n' || decide (0x20 ≤ n ∧ n ≤ 0x7E) || n == 0x85
    || decide (0xA0 ≤ n ∧ n ≤ 0xD7FF) || decide (0xE000 ≤ n ∧ n ≤ 0xFFFD ∧ n ≠ 0xFEFF)
    || decide (0x10000 ≤ n ∧ n < 0x10FFFF) && !Text.isLoneHalf c

/-- Indicators that a plain text must not start with. -/
def leadingIndicators : List Char :=
  ['#', ',', '[', ']', '\x7b', '\x7d', '&', '*', '!', '|', '>', '\'', '"', '%', '@', '\x60']

/-- The first character of a text would be read as an indicator. -/
def startsAsIndicator : List Char → Bool
  | [] => false
  | c :: rest =>
    let alone := match rest with
      | [] => true
      | d :: _ => isBlankOrBreak d
    leadingIndicators.contains c || (c == '?' || c == ':' || c == '-') && alone

/-- Later on, a colon before a blank and a number sign after one would be read as indicators;
`previous` is the character before the text. -/
def holdsIndicator (previous : Char) : List Char → Bool
  | [] => false
  | c :: rest =>
    let followed := match rest with
      | [] => true
      | d :: _ => isBlankOrBreak d
    c == ':' && followed || c == '#' && isBlankOrBreak previous || holdsIndicator c rest

/-- Somewhere, a character of the first class is directly followed by one of the second. -/
def hasPair (p q : Char → Bool) : List Char → Bool
  | c :: d :: rest => p c && q d || hasPair p q (d :: rest)
  | _ => false

def isSpace (c : Char) : Bool := c == ' '

/-- What a text looks like, as far as the choice of a style depends on it. -/
structure Look where
  /-- It holds a line end. -/
  multiline : Bool
  /-- It could be read as something else where a plain text may stand. -/
  indicators : Bool
  /-- It holds a character that only an escape can give. -/
  special : Bool
  /-- A space or line end stands first or last. -/
  looseEnds : Bool
  /-- A space stands last. -/
  trailingSpace : Bool
  /-- A line starts with a space. -/
  breakSpace : Bool
  /-- A line ends with a space. -/
  spaceBreak : Bool

def Look.of (cs : List Char) : Look :=
  let loose (c : Option Char) : Bool := c.any fun c => isSpace c || isBreak c
  { multiline := cs.any isBreak
    indicators := ['-', '-', '-'].isPrefixOf cs || ['.', '.', '.'].isPrefixOf cs
      || startsAsIndicator cs || holdsIndicator (cs.headD ' ') (cs.drop 1)
    special := cs.any fun c => !isOrdinary c
    looseEnds := loose cs.head? || loose cs.getLast?
    trailingSpace := cs.getLast?.any isSpace
    breakSpace := hasPair isBreak isSpace cs
    spaceBreak := hasPair isSpace isBreak cs }

def Look.allowsPlain (k : Look) : Bool :=
  !k.looseEnds && !k.breakSpace && !k.spaceBreak && !k.special && !k.multiline && !k.indicators

def Look.allowsSingle (k : Look) : Bool := !k.breakSpace && !k.spaceBreak && !k.special

def Look.allowsBlock (k : Look) : Bool := !k.trailingSpace && !k.spaceBreak && !k.special

inductive Style where
  | plain
  | single
  | double
  | literal
deriving DecidableEq, Repr

/-- The style of a text. `isKey` says that it stands as a key on one line, `plainReadsBack` that it
would be read as the same kind of scalar when plain, and `asBlock` that a literal block is
wanted. -/
def Style.choose (isKey plainReadsBack asBlock : Bool) (cs : List Char) : Style :=
  let look := Look.of cs
  if asBlock then
    if !isKey && !cs.isEmpty && look.allowsBlock then .literal else .double
  else if plainReadsBack && look.allowsPlain && !(isKey && cs.isEmpty) then .plain
  else if look.allowsSingle && !(isKey && look.multiline) then .single
  else .double

end Yaml

end StepLoom
