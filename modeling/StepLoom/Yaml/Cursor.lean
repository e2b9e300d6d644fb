import StepLoom.Fault
import StepLoom.Yaml.Style

/-!
# A place in a text

A cursor is the rest of a text together with how far one has come: the line, the column, and the
number of characters. It also knows the size of the whole text, and so at once how much is left at
most (`Cursor.room`). The readers of the single kinds of scalars work on cursors; each takes a
cursor behind the mark that begins the scalar and yields its text and the cursor behind it.
-/

namespace StepLoom

namespace Yaml

structure Cursor where
  rest : List Char
  /-- The number of characters of the whole text. -/
  size : Nat
  line : Nat := 0
  column : Nat := 0
  index : Nat := 0

namespace Cursor

/-- The beginning of a text. -/
def ofText (text : List Char) : Cursor := { rest := text, size := text.length }

/-- As many characters are left. -/
def room (c : Cursor) : Nat := c.size - c.index

/-- The next character; a byte order mark takes no column. -/
def step (c : Cursor) : Cursor :=
  match c.rest with
  | [] => c
  | ch :: rest =>
    let c := { c with rest := rest, index := c.index + 1 }
    if isBreak ch then { c with line := c.line + 1, column := 0 }
    else { c with column := if ch.toNat = 0xFEFF then c.column else c.column + 1 }

def skip : Nat → Cursor → Cursor
  | 0, c => c
  | n + 1, c => skip n c.step

def skipWhile (p : Char → Bool) (c : Cursor) : Cursor := c.skip (c.rest.takeWhile p).length

def skipSpaces (c : Cursor) : Cursor := c.skipWhile isSpace

def isAtEnd (c : Cursor) : Bool := c.rest.isEmpty

/-- The `n`-th character from here is of the class. -/
def has (p : Char → Bool) (n : Nat) (c : Cursor) : Bool := c.rest[n]?.any p

/-- A blank, a line end or the end of the text stands `n` characters from here. -/
def endsWordAt (n : Nat) (c : Cursor) : Bool := c.rest[n]?.all isBlankOrBreak

/-- A line end or the end of the text stands here. -/
def isAtLineEnd (c : Cursor) : Bool := c.rest.head?.all isBreak

/-- A space, a line end or the end of the text stands here. -/
def isAtGap (c : Cursor) : Bool := c.rest.head?.all fun ch => isSpace ch || isBreak ch

/-- The rest of a line. -/
def toLineEnd (c : Cursor) : Cursor := c.skipWhile fun ch => !isBreak ch

def skipComment (c : Cursor) : Cursor := if c.has (· == '#') 0 then c.toLineEnd else c

/-- The three characters of a document mark stand here, as a word of their own. -/
def isAtMark (mark : Char) (c : Cursor) : Bool :=
  [mark, mark, mark].isPrefixOf c.rest && c.endsWordAt 3

def isAtDocumentMark (c : Cursor) : Bool := c.isAtMark '-' || c.isAtMark '.'

/-- Nothing but blanks and a comment is left on the line; goes to the next one. -/
def finishLine (c : Cursor) : Except Fault Cursor :=
  let c := c.skipSpaces.skipComment
  if c.isAtLineEnd then .ok c.step else .error .yaml

/-! ## Names -/

def isNameChar (ch : Char) : Bool := ch.isAlphanum || ch == '-' || ch == '_'

/-- The characters of a class at the cursor. -/
def word (p : Char → Bool) (c : Cursor) : List Char × Cursor :=
  let w := c.rest.takeWhile p
  (w, c.skip w.length)

/-- At least one character of a class. -/
def word1 (p : Char → Bool) (c : Cursor) : Except Fault (List Char × Cursor) :=
  let (w, c) := c.word p
  if w.isEmpty then .error .yaml else .ok (w, c)

/-- What may follow the name of an anchor. -/
def endsName (c : Cursor) : Bool :=
  c.endsWordAt 0 || c.has (fun ch => ['?', ':', ',', ']', '\x7d', '%', '@', '\x60'].contains ch) 0

/-- The name of an anchor, after its mark. -/
def anchorName (c : Cursor) : Except Fault (String × Cursor) := do
  let (w, c) ← c.word1 isNameChar
  if c.endsName then return (String.ofList w, c) else throw .yaml

/-! ## Tags -/

def isTagChar (ch : Char) : Bool :=
  ch.isAlphanum || ['-', ';', '/', '?', ':', '@', '&', '=', '+', '$', ',', '_', '.', '!', '~', '*',
    '\'', '(', ')', '[', ']', '%'].contains ch

/-- The bytes behind a row of percent signs with two digits each, and the number of signs. -/
def percentBytes : List Char → Except Fault (List UInt8)
  | '%' :: a :: b :: rest =>
    match digitIn? 16 a, digitIn? 16 b with
    | some m, some n => do return UInt8.ofNat (m * 16 + n) :: (← percentBytes rest)
    | _, _ => .error .yaml
  | '%' :: _ => .error .yaml
  | _ => .ok []

/-- A percent-encoded text; the bytes of each row of escapes have to be UTF-8. -/
def decodePercent : (skip : Nat) → List Char → Except Fault (List Char)
  | _, [] => .ok []
  | skip + 1, _ :: rest => decodePercent skip rest
  | 0, ch :: rest =>
    if ch = '%' then do
      let bytes ← percentBytes (ch :: rest)
      match String.fromUTF8? ⟨bytes.toArray⟩ with
      | some s => return s.toList ++ (← decodePercent (3 * bytes.length - 1) rest)
      | none => throw .yaml
    else do return ch :: (← decodePercent 0 rest)

def tagText (c : Cursor) : Except Fault (String × Cursor) := do
  let (w, c) ← c.word1 isTagChar
  return (String.ofList (← decodePercent 0 w), c)

/-- A tag handle: `!`, `!!`, or a name between two marks. -/
def tagHandle (c : Cursor) : Except Fault (String × Cursor) :=
  if !c.has (· == '!') 0 then .error .yaml
  else if c.has (· == ' ') 1 then .ok ("!", c.step)
  else
    let (w, d) := c.step.word isNameChar
    if d.has (· == '!') 0 then .ok (String.ofList ('!' :: w ++ ['!']), d.step) else .error .yaml

/-- A tag: the handle, if it is given by one, and the text. -/
def tag (c : Cursor) : Except Fault ((Option String × String) × Cursor) := do
  let (result, c) ←
    if c.has (· == '<') 1 then do
      let (text, c) ← (c.skip 2).tagText
      if c.has (· == '>') 0 then pure ((none, text), c.step) else throw .yaml
    else if c.endsWordAt 1 then pure ((none, "!"), c.step)
    else do
      let body := c.step.rest.takeWhile fun ch => !(isSpace ch || isBreak ch)
      let (handle, c) ← if body.contains '!' then c.tagHandle else pure ("!", c.step)
      let (text, c) ← c.tagText
      pure ((some handle, text), c)
  if c.isAtGap then return (result, c) else throw .yaml

/-! ## Plain scalars -/

/-- Ends a plain scalar inside brackets. -/
def isFlowMark (ch : Char) : Bool := [',', '?', '[', ']', '\x7b', '\x7d'].contains ch

/-- What makes a colon inside brackets the mark of a value. -/
def isFlowBracket (ch : Char) : Bool := [',', '[', ']', '\x7b', '\x7d'].contains ch

/-- The length of the plain text on this line, up to the next space. -/
def plainLength (inFlow : Bool) : List Char → Nat
  | [] => 0
  | ch :: rest =>
    let ends := isBlankOrBreak ch
      || ch == ':' && (rest.head?.all isBlankOrBreak || inFlow && rest.head?.any isFlowBracket)
      || inFlow && isFlowMark ch
    if ends then 0 else plainLength inFlow rest + 1

/-- Blank lines inside a plain scalar. Yields their line ends, or nothing before a document
mark. -/
def plainBreaks : Nat → Cursor → Option (List Char) × Cursor
  | 0, c => (some [], c)
  | fuel + 1, c =>
    match c.rest with
    | ch :: _ =>
      if isSpace ch then plainBreaks fuel c.step
      else if isBreak ch then
        let d := c.step
        if d.isAtDocumentMark then (none, d)
        else
          let (more, e) := plainBreaks fuel d
          (more.map ((if ch = '\u0085' then '\n' else ch) :: ·), e)
      else (some [], c)
    | [] => (some [], c)

/-- Folded line ends: the first one is a space unless more follow it or it is a separator. -/
def fold (first : Char) (more : List Char) : List Char :=
  let first := if first = '\u0085' then '\n' else first
  if first ≠ '\n' then first :: more else if more.isEmpty then [' '] else more

/-- What stands between two words of a plain scalar; nothing if the scalar ends. Also tells whether
a line has ended. -/
def plainGap (c : Cursor) : (List Char × Bool) × Cursor :=
  let (spaces, d) := c.word isSpace
  match d.rest with
  | ch :: _ =>
    if isBreak ch then
      let e := d.step
      if e.isAtDocumentMark then (([], true), e)
      else match plainBreaks e.room e with
        | (none, f) => (([], true), f)
        | (some more, f) => ((fold ch more, true), f)
    else ((spaces, false), d)
  | [] => ((spaces, false), d)

/-- A plain scalar that may go on in lines indented by `indent`. Also tells whether a line has ended
after its last word. -/
def plain (inFlow : Bool) (indent : Int) : Nat → Cursor → (List Char × Bool) × Cursor
  | 0, c => (([], false), c)
  | fuel + 1, c =>
    let n := if c.has (· == '#') 0 then 0 else plainLength inFlow c.rest
    if n = 0 then (([], true), c)
    else
      let text := c.rest.take n
      let ((gap, crossed), d) := (c.skip n).plainGap
      if gap.isEmpty || d.has (· == '#') 0 || !inFlow && decide ((d.column : Int) < indent) then
        ((text, crossed), d)
      else
        let more := if d.has (· == '#') 0 then 0 else plainLength inFlow d.rest
        if more = 0 then ((text, crossed), d)
        else
          let ((tail, last), e) := plain inFlow indent fuel d
          ((text ++ gap ++ tail, last), e)

/-! ## Quoted scalars -/

/-- Blank lines inside a quoted scalar, with the blanks around them. -/
def quotedBreaks : Nat → Cursor → Except Fault (List Char × Cursor)
  | 0, c => .ok ([], c)
  | fuel + 1, c =>
    if c.isAtDocumentMark then .error .yaml
    else
      let c := c.skipWhile isSpaceOrTab
      match c.rest with
      | ch :: _ =>
        if isBreak ch then do
          let (more, d) ← quotedBreaks fuel c.step
          return ((if ch = '\u0085' then '\n' else ch) :: more, d)
        else return ([], c)
      | [] => return ([], c)

/-- What stands between two words of a quoted scalar. -/
def quotedGap (c : Cursor) : Except Fault (List Char × Cursor) :=
  let (blanks, d) := c.word isSpaceOrTab
  match d.rest with
  | [] => .error .yaml
  | ch :: _ =>
    if isBreak ch then do
      let (more, e) ← quotedBreaks d.room d.step
      return (fold ch more, e)
    else .ok (blanks, d)

def escapeLetters : List (Char × Nat) :=
  [('0', 0), ('a', 7), ('b', 8), ('t', 9), ('\t', 9), ('n', 10), ('v', 11), ('f', 12), ('r', 13),
   ('e', 27), (' ', 32), ('"', 34), ('\\', 92), ('/', 47), ('N', 0x85), ('_', 0xA0), ('L', 0x2028),
   ('P', 0x2029)]

def escapeWidths : List (Char × Nat) := [('x', 2), ('u', 4), ('U', 8)]

/-- The character of an escape with `width` digits. -/
def numericEscape (width : Nat) (c : Cursor) : Except Fault (List Char × Cursor) :=
  let digits := c.rest.take width
  if digits.length < width || digits.any fun ch => (digitIn? 16 ch).isNone then .error .yaml
  else
    let n := digits.foldl (fun n ch => n * 16 + (digitIn? 16 ch).getD 0) 0
    if 0x110000 ≤ n then .error (.invalidData "chr() arg not in range(0x110000)")
    else .ok ([Text.charOf n], c.skip width)

/-- An escape, after its backslash. -/
def escape (c : Cursor) : Except Fault (List Char × Cursor) :=
  match c.rest with
  | [] => .error .yaml
  | ch :: _ =>
    match escapeLetters.find? (·.1 == ch), escapeWidths.find? (·.1 == ch) with
    | some (_, n), _ => .ok ([Char.ofNat n], c.step)
    | none, some (_, width) => numericEscape width c.step
    | none, none => if isBreak ch then quotedBreaks c.room c.step else .error .yaml

/-- The rest of a scalar in double or single quotes, up to the closing quote. -/
def quoted (isDouble : Bool) : Nat → Cursor → Except Fault (List Char × Cursor)
  | 0, _ => .error .yaml
  | fuel + 1, c =>
    match c.rest with
    | [] => .error .yaml
    | ch :: rest =>
      if isBlankOrBreak ch then do
        let (gap, d) ← c.quotedGap
        let (tail, e) ← quoted isDouble fuel d
        return (gap ++ tail, e)
      else if isDouble && ch == '\\' then do
        let (text, d) ← c.step.escape
        let (tail, e) ← quoted isDouble fuel d
        return (text ++ tail, e)
      else if !isDouble && ch == '\'' && rest.head? == some '\'' then do
        let (tail, e) ← quoted isDouble fuel (c.skip 2)
        return ('\'' :: tail, e)
      else if ch == (if isDouble then '"' else '\'') then .ok ([], c.step)
      else do
        let (tail, e) ← quoted isDouble fuel c.step
        return (ch :: tail, e)

/-! ## Block scalars -/

/-- What becomes of the line ends at the end of a block. -/
inductive Chomping where
  | clip
  | strip
  | keep
deriving DecidableEq, Repr

def chomping? (c : Cursor) : Option (Chomping × Cursor) :=
  if c.has (· == '+') 0 then some (.keep, c.step)
  else if c.has (· == '-') 0 then some (.strip, c.step)
  else none

/-- The indentation given in a header, which cannot be zero. -/
def blockIndent? (c : Cursor) : Except Fault (Option Nat × Cursor) :=
  match c.rest with
  | ch :: _ =>
    if ch.isDigit then
      if ch = '0' then .error .yaml else .ok (some (ch.toNat - 48), c.step)
    else .ok (none, c)
  | [] => .ok (none, c)

/-- The header of a block: chomping and indentation in either order. -/
def blockHeader (c : Cursor) : Except Fault ((Chomping × Option Nat) × Cursor) := do
  let (result, c) ← match c.chomping? with
    | some (chomping, c) => do
      let (indent, c) ← c.blockIndent?
      pure ((chomping, indent), c)
    | none => do
      let (indent, c) ← c.blockIndent?
      match indent, c.chomping? with
      | some _, some (chomping, c) => pure ((chomping, indent), c)
      | _, _ => pure ((.clip, indent), c)
  if c.isAtGap then return (result, ← c.finishLine) else throw .yaml

/-- Blank lines at the start of a block whose indentation is found out: their line ends, and the
widest of their indentations and that of the first line with text. -/
def leadingBreaks : Nat → (widest : Nat) → Cursor → (List Char × Nat) × Cursor
  | 0, widest, c => (([], widest), c)
  | fuel + 1, widest, c =>
    match c.rest with
    | ch :: _ =>
      if isSpace ch then leadingBreaks fuel (max widest c.step.column) c.step
      else if isBreak ch then
        let ((more, widest), d) := leadingBreaks fuel widest c.step
        (((if ch = '\u0085' then '\n' else ch) :: more, widest), d)
      else (([], widest), c)
    | [] => (([], widest), c)

/-- Spaces up to the indentation. -/
def toIndent (indent : Nat) (c : Cursor) : Cursor :=
  c.skip ((c.rest.take (indent - c.column)).takeWhile isSpace).length

/-- Blank lines of a block with the given indentation. -/
def blockBreaks (indent : Nat) : Nat → Cursor → List Char × Cursor
  | 0, c => ([], c)
  | fuel + 1, c =>
    let c := c.toIndent indent
    match c.rest with
    | ch :: _ =>
      if isBreak ch then
        let (more, d) := blockBreaks indent fuel c.step
        ((if ch = '\u0085' then '\n' else ch) :: more, d)
      else ([], c)
    | [] => ([], c)

def startsBlank (c : Cursor) : Bool := c.has isSpaceOrTab 0

/-- The lines of a block from here on. `breaks` are the line ends before this line. Yields the text
up to the last line, its line end, and the line ends after it. -/
def blockLines (isFolded : Bool) (indent : Nat) :
    Nat → (breaks : List Char) → Cursor → (List Char × List Char × List Char) × Cursor
  | 0, breaks, c => (([], [], breaks), c)
  | fuel + 1, breaks, c =>
    let isText := !c.startsBlank
    let (line, d) := c.word fun ch => !isBreak ch
    let ending := d.rest.head?.toList.map fun ch => if ch = '\u0085' then '\n' else ch
    let (more, e) := blockBreaks indent d.room d.step
    if e.column = indent && !e.isAtEnd then
      let joint :=
        if isFolded && ending == ['\n'] && isText && !e.startsBlank then
          if more.isEmpty then [' '] else []
        else ending
      let ((tail, last, after), f) := blockLines isFolded indent fuel more e
      ((breaks ++ line ++ joint ++ tail, last, after), f)
    else ((breaks ++ line, ending, more), e)

/-- A block scalar after its mark, inside a level with the given indentation. -/
def block (isFolded : Bool) (level : Int) (c : Cursor) : Except Fault (List Char × Cursor) := do
  let ((chomping, given), c) ← c.blockHeader
  let least := max 1 (level + 1).toNat
  let (indent, breaks, c) := match given with
    | some n =>
      let (breaks, d) := blockBreaks (least + n - 1) c.room c
      (least + n - 1, breaks, d)
    | none =>
      let ((breaks, widest), d) := leadingBreaks c.room 0 c
      (max least widest, breaks, d)
  let ((text, last, after), c) :=
    if c.column = indent && !c.isAtEnd then blockLines isFolded indent (c.room + 1) breaks c
    else (([], [], breaks), c)
  let ending := match chomping with
    | .clip => last
    | .strip => []
    | .keep => last ++ after
  return (text ++ ending, c)

end Cursor

end Yaml

end StepLoom
