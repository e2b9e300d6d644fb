import StepLoom.Text.Base64
import StepLoom.Yaml.Style

/-!
# Writing YAML

`Yaml.write` writes a value in block style: two blanks per level, sequences not indented inside
mappings, a line of its own for each item and field. A key that is empty, spans lines or is too long
is written after a question mark. Long quoted and plain texts are folded after a thousand columns.
A value that is a part of itself has no end and is not written, and neither is one with an integer
of too many digits.

A `Pen` holds the text written so far and what the next mark depends on. Texts are written run by
run: a run is all spaces, all line ends, or free of both.
-/

namespace StepLoom

namespace Yaml

structure Pen where
  out : String := ""
  column : Nat := 0
  /-- Nothing but blanks since the last mark, so that no blank is needed before the next one. -/
  blank : Bool := true
  /-- Nothing but indentation and indicators on this line. -/
  indention : Bool := true
  /-- The end of the document has to be marked. -/
  openEnded : Bool := false

/-- How wide a line may get before it is folded. -/
def lineWidth : Nat := 1000

def indentStep : Nat := 2

namespace Pen

def text (p : Pen) (cs : List Char) : Pen :=
  { p with out := p.out ++ String.ofList cs, column := p.column + cs.length }

/-- Text that is not counted, inside a literal block. -/
def raw (p : Pen) (cs : List Char) : Pen := { p with out := p.out ++ String.ofList cs }

def lineBreak (p : Pen) (c : Char) : Pen :=
  { p with out := p.out.push c, column := 0, blank := true, indention := true }

/-- Goes to the indentation of a level, on a new line unless this one is still free. -/
def indentTo (level : Nat) (p : Pen) : Pen :=
  let p :=
    if !p.indention || decide (level < p.column) || p.column == level && !p.blank
    then p.lineBreak '\n' else p
  if p.column < level then
    { p with
      out := p.out ++ String.ofList (List.replicate (level - p.column) ' ')
      column := level
      blank := true }
  else p

/-- Writes a mark. `spaced` asks for a blank before it; `keepsIndention` says that it is part of the
indentation. -/
def mark (s : String) (spaced keepsIndention : Bool) (p : Pen) : Pen :=
  let s := if p.blank || !spaced then s else " " ++ s
  { p with
    out := p.out ++ s
    column := p.column + s.length
    blank := false
    indention := p.indention && keepsIndention
    openEnded := false }

end Pen

/-! ## Runs -/

inductive Run where
  | spaces (n : Nat)
  | breaks (cs : List Char)
  | word (cs : List Char)

/-- Puts a character in front of runs. -/
def Run.push (c : Char) : List Run → List Run
  | .spaces n :: rest => if isSpace c then .spaces (n + 1) :: rest else fresh c (.spaces n :: rest)
  | .breaks cs :: rest =>
    if isBreak c then .breaks (c :: cs) :: rest else fresh c (.breaks cs :: rest)
  | .word cs :: rest =>
    if isSpace c || isBreak c then fresh c (.word cs :: rest) else .word (c :: cs) :: rest
  | [] => fresh c []
where
  fresh (c : Char) (rest : List Run) : List Run :=
    (if isSpace c then Run.spaces 1 else if isBreak c then .breaks [c] else .word [c]) :: rest

def runs (cs : List Char) : List Run := cs.foldr Run.push []

/-- Lines that are broken off in a quoted text: a line feed is written twice, since one is read as
a space. -/
def writeBreaks (level : Nat) (cs : List Char) (p : Pen) : Pen :=
  let p := if cs.head? = some '\n' then p.lineBreak '\n' else p
  (cs.foldl Pen.lineBreak p).indentTo level

/-- A single space may be written as a folded line. -/
def foldsAt (fold isFirst isLast : Bool) (n : Nat) (p : Pen) : Bool :=
  n == 1 && decide (lineWidth < p.column) && fold && !isFirst && !isLast

def writeSingleRuns (level : Nat) (fold : Bool) : (isFirst : Bool) → List Run → Pen → Pen
  | _, [], p => p
  | isFirst, run :: rest, p =>
    let p := match run with
      | .spaces n =>
        if foldsAt fold isFirst rest.isEmpty n p then p.indentTo level
        else p.text (List.replicate n ' ')
      | .breaks cs => writeBreaks level cs p
      | .word cs => p.text (cs.flatMap fun c => if c = '\'' then ['\'', '\''] else [c])
    writeSingleRuns level fold false rest p

def writeSingle (level : Nat) (fold : Bool) (cs : List Char) (p : Pen) : Pen :=
  (writeSingleRuns level fold true (runs cs) (p.mark "'" true false)).mark "'" false false

def writePlainRuns (level : Nat) (fold : Bool) : (isFirst : Bool) → List Run → Pen → Pen
  | _, [], p => p
  | isFirst, run :: rest, p =>
    let p := match run with
      | .spaces n =>
        if foldsAt fold isFirst rest.isEmpty n p then
          { p.indentTo level with blank := false, indention := false }
        else p.text (List.replicate n ' ')
      | .breaks cs => p.text cs
      | .word cs => p.text cs
    writePlainRuns level fold false rest p

/-- Plain text; at the top level its end has to be marked. -/
def writePlain (level : Nat) (fold isRoot : Bool) (cs : List Char) (p : Pen) : Pen :=
  let p := if isRoot then { p with openEnded := true } else p
  if cs.isEmpty then p
  else
    let p := if p.blank then p else p.text [' ']
    writePlainRuns level fold true (runs cs) { p with blank := false, indention := false }

/-! ## Double quotes -/

/-- Escapes with a letter of their own. -/
def letterEscapes : List (Nat × Char) :=
  [(0, '0'), (7, 'a'), (8, 'b'), (9, 't'), (10, 'n'), (11, 'v'), (12, 'f'), (13, 'r'), (27, 'e'),
   (34, '"'), (92, '\\'), (0x85, 'N'), (0xA0, '_'), (0x2028, 'L'), (0x2029, 'P')]

/-- The characters that stand for themselves between double quotes. -/
def standsInDouble (c : Char) : Bool :=
  let n := c.toNat
  !(c == '"' || c == '\\' || n == 0x85 || n == 0x2028 || n == 0x2029 || n == 0xFEFF)
    && (decide (0x20 ≤ n ∧ n ≤ 0x7E) || decide (0xA0 ≤ n ∧ n ≤ 0xD7FF)
      || decide (0xE000 ≤ n ∧ n ≤ 0xFFFD))

def upperHex (width n : Nat) : List Char := (Text.hexDigits width n).map Char.toUpper

def escapeDouble (c : Char) : List Char :=
  let n := Text.codeOf c
  '\\' :: match letterEscapes.find? (·.1 == n) with
    | some (_, letter) => [letter]
    | none =>
      if n < 256 then 'x' :: upperHex 2 n
      else if n < 65536 then 'u' :: upperHex 4 n
      else 'U' :: upperHex 8 n

/-- Writes characters of a double-quoted text. `pending` holds those not yet on the paper, reversed.
Past the line width the text goes on in the next line after a backslash, which keeps the line end
out of it; a line that would start with a space starts with another one. -/
def writeDoubleFrom (level : Nat) (fold : Bool) :
    (isFirst : Bool) → (pending : List Char) → List Char → Pen → Pen
  | _, pending, [], p => p.text pending.reverse
  | isFirst, pending, c :: rest, p =>
    let escaped := !standsInDouble c
    let p := if escaped then (p.text pending.reverse).text (escapeDouble c) else p
    let pending := if escaped then [] else pending
    let reached := if escaped then p.column - 1 else p.column + pending.length
    let foldsHere := fold && !isFirst && !rest.isEmpty && (isSpace c || pending.isEmpty)
      && decide (lineWidth < reached)
    let (p, pending) :=
      if foldsHere then
        let p := ((p.text pending.reverse).text ['\\']).indentTo level
        let p := { p with blank := false, indention := false }
        let next := if escaped then rest.head? else some c
        (if next = some ' ' then p.text ['\\'] else p, [])
      else (p, pending)
    writeDoubleFrom level fold false (if escaped then pending else c :: pending) rest p

def writeDouble (level : Nat) (fold : Bool) (cs : List Char) (p : Pen) : Pen :=
  (writeDoubleFrom level fold true [] cs (p.mark "\"" true false)).mark "\"" false false

/-! ## Literal blocks -/

/-- What a block's header has to say: the indentation if the text starts with a space or line end,
and what happens to the line ends at its end. -/
def blockHints (cs : List Char) : String :=
  let indentation :=
    if cs.head?.any fun c => isSpace c || isBreak c then toString indentStep else ""
  let ending := match cs.reverse with
    | [] => ""
    | c :: before =>
      if !isBreak c then "-"
      else match before with
        | [] => "+"
        | d :: _ => if isBreak d then "+" else ""
  indentation ++ ending

/-- Each line goes to the indentation of the block; the last one gets a line end if it has none. -/
def writeLiteralFrom (level : Nat) : (atLineStart : Bool) → List Char → Pen → Pen
  | atLineStart, [], p => if atLineStart then p else p.lineBreak '\n'
  | atLineStart, c :: rest, p =>
    if isBreak c then writeLiteralFrom level true rest (p.lineBreak c)
    else writeLiteralFrom level false rest ((if atLineStart then p.indentTo level else p).raw [c])

def writeLiteral (level : Nat) (cs : List Char) (p : Pen) : Pen :=
  let hints := blockHints cs
  let p := p.mark ("|" ++ hints) true false
  let p := if hints.endsWith "+" then { p with openEnded := true } else p
  writeLiteralFrom level true cs (p.lineBreak '\n')

/-! ## Scalars -/

/-- A float always has a point, so that it reads back as one. -/
def floatText (x : Binary64) : String :=
  match x.parts with
  | .nan => ".nan"
  | .infinite negative => if negative then "-.inf" else ".inf"
  | .finite .. =>
    let cs := x.text.toList
    if cs.contains '.' || !cs.contains 'e' then x.text
    else String.ofList (cs.takeWhile (· ≠ 'e') ++ ['.', '0'] ++ cs.dropWhile (· ≠ 'e'))

def scalarTag : Scalar → Tag
  | .null => .null
  | .bool _ => .bool
  | .int _ => .int
  | .float _ => .float
  | .str _ => .str
  | .date _ | .timestamp _ => .timestamp
  | .bytes _ => .binary
  | .pair .. => .seq

def scalarText : Scalar → String
  | .null => "null"
  | .bool b => if b then "true" else "false"
  | .int n => toString n
  | .float x => floatText x
  | .str s => s
  | .date d => d.text
  | .timestamp t => t.textWith " "
  | .bytes bs => Text.Base64.encodeLines bs
  | .pair .. => ""

/-- Scripts and encoded bytes are written as blocks. -/
def wantsBlock : Scalar → Bool
  | .str s => s.toList.contains '\n'
  | .bytes _ => true
  | _ => false

def Tag.name : Tag → String
  | null => "!!null"
  | bool => "!!bool"
  | int => "!!int"
  | float => "!!float"
  | timestamp => "!!timestamp"
  | binary => "!!binary"
  | set => "!!set"
  | _ => "!!str"

/-- A key that may stand in front of its colon, on one line; a pair or an empty text may not. -/
def isSimpleKey (k : Scalar) : Bool :=
  let cs := (scalarText k).toList
  decide ((scalarTag k).name.length + cs.length < 128) && !cs.isEmpty && !cs.any isBreak

/-- Where a value stands. -/
inductive Place where
  | root
  | item
  | key
  | field
deriving DecidableEq, Repr

/-- The level below `level`; the document itself is at no level. -/
def deeper (level : Option Nat) : Nat :=
  match level with
  | none => 0
  | some n => n + indentStep

def writeScalar (level : Option Nat) (place : Place) (s : Scalar) (p : Pen) : Pen :=
  let text := scalarText s
  let cs := text.toList
  let tag := scalarTag s
  let isKey := place == .key
  let readsBack := Tag.ofPlain .workflow text == tag
  let style := Style.choose isKey readsBack (wantsBlock s) cs
  let p := if style == .plain || tag == .str then p else p.mark tag.name true false
  let level := (level.getD 0) + indentStep
  match style with
  | .plain => writePlain level (!isKey) (place == .root) cs p
  | .single => writeSingle level (!isKey) cs p
  | .double => writeDouble level (!isKey) cs p
  | .literal => writeLiteral level cs p

/-! ## Values -/

def writeEmpty (opening closing : String) (p : Pen) : Pen :=
  (p.mark opening true false).mark closing false false

/-- The level of the items of a list. In a field they are not indented, unless they begin on the
line of a mark. -/
def itemLevel (level : Option Nat) (place : Place) (p : Pen) : Nat :=
  if place == .field && !p.indention then level.getD 0 else deeper level

def beginItem (level : Nat) (p : Pen) : Pen := (p.indentTo level).mark "-" true true

/-- A key that has a line or more of its own. -/
def writeLongKey (level : Nat) : Scalar → Pen → Pen
  | .pair a b, p =>
    let inner := level + indentStep
    writeScalar (some inner) .item b
      (beginItem inner (writeScalar (some inner) .item a (beginItem inner p)))
  | k, p => writeScalar (some level) .field k p

def writeKey (level : Nat) (k : Scalar) (p : Pen) : Pen :=
  let p := p.indentTo level
  if isSimpleKey k then (writeScalar (some level) .key k p).mark ":" false false
  else ((writeLongKey level k (p.mark "?" true true)).indentTo level).mark ":" true true

/-- The members of a set, as the fields of a mapping to nothing. -/
def writeMembers (level : Nat) : List Scalar → Pen → Pen
  | [], p => p
  | k :: rest, p =>
    writeMembers level rest (writeScalar (some level) .field .null (writeKey level k p))

mutual

def writeValue (level : Option Nat) (place : Place) : Value → Pen → Pen
  | .scalar s, p => writeScalar level place s p
  | .list [], p | .ring _ [], p => writeEmpty "[" "]" p
  | .list (v :: rest), p | .ring _ (v :: rest), p =>
    writeItems (itemLevel level place p) (v :: rest) p
  | .pair a b, p =>
    let inner := itemLevel level place p
    writeValue (some inner) .item b
      (beginItem inner (writeValue (some inner) .item a (beginItem inner p)))
  | .set members, p =>
    let p := p.mark (Tag.name .set) true false
    if members.isEmpty then writeEmpty "\x7b" "\x7d" p else writeMembers (deeper level) members p
  | .map _ [], p => writeEmpty "\x7b" "\x7d" p
  | .map _ (f :: rest), p => writeFields (deeper level) (f :: rest) p
  | .again _, p => p

def writeItems (level : Nat) : List Value → Pen → Pen
  | [], p => p
  | v :: rest, p => writeItems level rest (writeValue (some level) .item v (beginItem level p))

def writeFields (level : Nat) : List (Scalar × Value) → Pen → Pen
  | [], p => p
  | (k, v) :: rest, p =>
    writeFields level rest (writeValue (some level) .field v (writeKey level k p))

end

/-! ## What cannot be written -/

def scalarObstacle? (s : Scalar) : Option Fault :=
  if s.hasText then none else some (.tooManyDigits none)

mutual

/-- The first thing in a value that cannot be written. -/
def obstacle? : Value → Option Fault
  | .scalar s => scalarObstacle? s
  | .list items => itemsObstacle? items
  | .pair a b => (obstacle? a).or (obstacle? b)
  | .set members => members.findSome? scalarObstacle?
  | .map _ fields => fieldsObstacle? fields
  | .ring _ items => itemsObstacle? items
  | .again _ => some .endless

def itemsObstacle? : List Value → Option Fault
  | [] => none
  | v :: rest => (obstacle? v).or (itemsObstacle? rest)

def fieldsObstacle? : List (Scalar × Value) → Option Fault
  | [] => none
  | (k, v) :: rest => ((scalarObstacle? k).or (obstacle? v)).or (fieldsObstacle? rest)

end

/-- The document with the value, and a mark at its end if one is needed. -/
def written (v : Value) : String :=
  let p := (writeValue none .root v {}).indentTo 0
  let p := if p.openEnded then (p.mark "..." true false).indentTo 0 else p
  p.out

def write (v : Value) : Except Fault String :=
  match obstacle? v with
  | some fault => .error fault
  | none => .ok (written v)

end Yaml

end StepLoom
