import StepLoom.Yaml.Cursor

/-!
# Tokens

`Tokens.ofText` cuts a text into tokens. Indentation is made visible: a block collection starts with
a token of its own and ends with one. So are keys: a node can turn out to be a key only when a colon
follows it on its line, and then the mark of a key is put in front of it. Every node that may be a
key is remembered as a candidate until the line ends, one for each depth of brackets.
-/

namespace StepLoom

namespace Yaml

inductive Directive where
  | version (major : Nat)
  | handle (name prefixText : String)
  | unknown

inductive Token where
  | directive (d : Directive)
  | documentStart
  | documentEnd
  | streamEnd
  | blockSequence
  | blockMapping
  | blockEnd
  | openBracket
  | closeBracket
  | openBrace
  | closeBrace
  | comma
  | entry
  | key
  | value
  | alias (name : String)
  | anchor (name : String)
  | tag (handle : Option String) (text : String)
  | scalar (isPlain : Bool) (text : String)

/-- A node that may turn out to be a key. -/
structure Candidate where
  /-- How many tokens come before it. -/
  position : Nat
  /-- It stands where the block mapping of its level needs a key. -/
  required : Bool
  index : Nat
  line : Nat
  column : Nat

structure Lexer where
  cursor : Cursor
  tokens : Array Token := #[]
  flowDepth : Nat := 0
  /-- The indentation of the innermost block collection, and those around it. -/
  indent : Int := -1
  outer : List Int := []
  /-- A key or an entry may start here. -/
  keyAllowed : Bool := true
  /-- The candidates, with their depths. -/
  candidates : List (Nat × Candidate) := []
  /-- How many tokens were final before the one that is being read. -/
  certain : Nat := 0

namespace Lexer

abbrev Step := ExceptT Fault (StateM Lexer)

def emit (t : Token) : Step Unit := modify fun l => { l with tokens := l.tokens.push t }

def moveTo (c : Cursor) : Step Unit := modify fun l => { l with cursor := c }

def allowKey (b : Bool) : Step Unit := modify fun l => { l with keyAllowed := b }

def inFlow (l : Lexer) : Bool := decide (0 < l.flowDepth)

/-- A token at a position, counted from the start. -/
def insertAt (position : Nat) (t : Token) (l : Lexer) : Lexer :=
  { l with tokens := l.tokens.insertIdxIfInBounds position t }

/-! ## Indentation -/

/-- Ends the block collections that are indented deeper than a column. -/
def closeBlocks (column : Int) : (outer : List Int) → Lexer → Lexer
  | [], l => l
  | up :: rest, l =>
    if column < l.indent then
      closeBlocks column rest
        { l with indent := up, outer := rest, tokens := l.tokens.push .blockEnd }
    else l

def leaveBlocks (column : Int) : Step Unit :=
  modify fun l => if l.inFlow then l else closeBlocks column l.outer l

/-- Begins a block collection at a column, unless one with this indentation is open. -/
def enterBlock (column : Nat) (t : Token) (position : Option Nat) : Step Unit :=
  modify fun l =>
    if l.indent < (column : Int) then
      let l := { l with indent := column, outer := l.indent :: l.outer }
      match position with
      | some n => insertAt n t l
      | none => { l with tokens := l.tokens.push t }
    else l

/-! ## Candidates for keys -/

/-- A candidate is out of date on another line and after 1024 characters. -/
def isStale (c : Cursor) (k : Candidate) : Bool :=
  k.line != c.line || decide (k.index + 1024 < c.index)

def forgetStale : Step Unit := do
  let l ← get
  let stale := l.candidates.filter fun (_, k) => isStale l.cursor k
  if stale.any fun (_, k) => k.required then throw .yaml
  set { l with candidates := l.candidates.filter fun (_, k) => !isStale l.cursor k }

/-- Gives up the candidate at this depth; a required one cannot be given up. -/
def forget : Step Unit := do
  let l ← get
  if l.candidates.any fun (depth, k) => depth == l.flowDepth && k.required then throw .yaml
  set { l with candidates := l.candidates.filter fun (depth, _) => depth != l.flowDepth }

/-- The node that begins here may be a key. -/
def remember : Step Unit := do
  let l ← get
  if l.keyAllowed then
    let required := !l.inFlow && decide (l.indent = l.cursor.column)
    forget
    modify fun m =>
      { m with
        candidates := (l.flowDepth, ⟨l.tokens.size, required, l.cursor.index, l.cursor.line,
          l.cursor.column⟩) :: m.candidates }

/-! ## Between tokens -/

/-- Passes over spaces, comments and line ends. In block context a new line may start with a key. -/
def toNextToken : Nat → Lexer → Lexer
  | 0, l => l
  | fuel + 1, l =>
    let c := l.cursor.skipSpaces.skipComment
    if !c.isAtEnd && c.isAtLineEnd then
      toNextToken fuel { l with cursor := c.step, keyAllowed := l.keyAllowed || !l.inFlow }
    else { l with cursor := c }

/-! ## Single tokens -/

/-- A token of `width` characters. -/
def mark (t : Token) (width : Nat) : Step Unit := do
  emit t
  modify fun l => { l with cursor := l.cursor.skip width }

def documentMark (t : Token) : Step Unit := do
  leaveBlocks (-1)
  forget
  allowKey false
  mark t 3

/-- The number in front of a word. -/
def number (c : Cursor) : Except Fault (Nat × Cursor) := do
  let (w, c) ← c.word1 Char.isDigit
  match readInt 10 w with
  | .error (.tooManyDigits count) => throw (.tooManyDigits (some count))
  | _ => return (digitsValue w, c)

/-- A directive, after its mark. -/
def directiveOf (c : Cursor) : Except Fault (Directive × Cursor) := do
  let (name, c) ← c.word1 Cursor.isNameChar
  if !c.isAtGap then throw .yaml
  match String.ofList name with
  | "YAML" =>
    let (major, c) ← number c.skipSpaces
    if !c.has (· == '.') 0 then throw .yaml
    let (_, c) ← number c.step
    if !c.isAtGap then throw .yaml
    return (.version major, c)
  | "TAG" =>
    let (handle, c) ← c.skipSpaces.tagHandle
    if !c.has isSpace 0 then throw .yaml
    let (text, c) ← c.skipSpaces.tagText
    if !c.isAtGap then throw .yaml
    return (.handle handle text, c)
  | _ => return (.unknown, c.toLineEnd)

def directive : Step Unit := do
  leaveBlocks (-1)
  forget
  allowKey false
  let (d, c) ← liftM (directiveOf (← get).cursor.step)
  emit (.directive d)
  moveTo (← liftM c.finishLine)

def openFlow (t : Token) : Step Unit := do
  remember
  modify fun l => { l with flowDepth := l.flowDepth + 1, keyAllowed := true }
  mark t 1

def closeFlow (t : Token) : Step Unit := do
  forget
  if !(← get).inFlow then throw .yaml
  modify fun l => { l with flowDepth := l.flowDepth - 1, keyAllowed := false }
  mark t 1

def comma : Step Unit := do
  allowKey true
  forget
  mark .comma 1

/-- An entry of a block sequence, or a key after a question mark. -/
def blockMark (t collection : Token) (keyAllowedAfter : Bool) : Step Unit := do
  let l ← get
  if !l.inFlow then
    if !l.keyAllowed then throw .yaml
    enterBlock l.cursor.column collection none
  allowKey keyAllowedAfter
  forget
  mark t 1

/-- The colon before a value. The candidate at this depth becomes a key; without one, the colon
stands where a key could. -/
def valueMark : Step Unit := do
  let l ← get
  match l.candidates.find? fun (depth, _) => depth == l.flowDepth with
  | some (_, k) =>
    modify fun l =>
      insertAt k.position .key
        { l with candidates := l.candidates.filter fun (depth, _) => depth != l.flowDepth }
    if !l.inFlow then enterBlock k.column .blockMapping (some k.position)
    allowKey false
  | none =>
    if !l.inFlow then
      if !l.keyAllowed then throw .yaml
      enterBlock l.cursor.column .blockMapping none
    allowKey (!l.inFlow)
    forget
  mark .value 1

/-- A node that is read from behind its mark. -/
def node (read : Cursor → Except Fault (Token × Cursor)) : Step Unit := do
  remember
  allowKey false
  let (t, c) ← liftM (read (← get).cursor)
  emit t
  moveTo c

def readAlias (c : Cursor) : Except Fault (Token × Cursor) := do
  let (name, c) ← c.step.anchorName
  return (.alias name, c)

def readAnchor (c : Cursor) : Except Fault (Token × Cursor) := do
  let (name, c) ← c.step.anchorName
  return (.anchor name, c)

def readTag (c : Cursor) : Except Fault (Token × Cursor) := do
  let ((handle, text), c) ← c.tag
  return (.tag handle text, c)

def readQuoted (isDouble : Bool) (c : Cursor) : Except Fault (Token × Cursor) := do
  let (text, c) ← Cursor.quoted isDouble c.room c.step
  return (.scalar false (String.ofList text), c)

def block (isFolded : Bool) : Step Unit := do
  allowKey true
  forget
  let l ← get
  let (text, c) ← liftM (l.cursor.step.block isFolded l.indent)
  emit (.scalar false (String.ofList text))
  moveTo c

def plain : Step Unit := do
  remember
  let l ← get
  let ((text, crossed), c) := Cursor.plain l.inFlow (l.indent + 1) l.cursor.room l.cursor
  allowKey crossed
  emit (.scalar true (String.ofList text))
  moveTo c

/-- Indicators that a plain scalar starts with only if no blank follows, or not at all. -/
def notPlain : List Char :=
  ['-', '?', ':', ',', '[', ']', '\x7b', '\x7d', '#', '&', '*', '!', '|', '>', '\'', '"', '%', '@',
    '\x60']

def startsPlain (l : Lexer) (ch : Char) : Bool :=
  !isBlankOrBreak ch && !notPlain.contains ch
    || !l.cursor.endsWordAt 1 && (ch == '-' || !l.inFlow && (ch == '?' || ch == ':'))

def finish : Step Unit := do
  leaveBlocks (-1)
  forget
  emit .streamEnd

/-- The token that begins with a character. -/
def token (ch : Char) : Step Unit := do
  let l ← get
  let c := l.cursor
  if ch = '%' ∧ c.column = 0 then directive
  else if c.column = 0 ∧ c.isAtMark '-' then documentMark .documentStart
  else if c.column = 0 ∧ c.isAtMark '.' then documentMark .documentEnd
  else if ch = '[' then openFlow .openBracket
  else if ch = '\x7b' then openFlow .openBrace
  else if ch = ']' then closeFlow .closeBracket
  else if ch = '\x7d' then closeFlow .closeBrace
  else if ch = ',' then comma
  else if ch = '-' ∧ c.endsWordAt 1 then blockMark .entry .blockSequence true
  else if ch = '?' ∧ (l.inFlow ∨ c.endsWordAt 1) then blockMark .key .blockMapping (!l.inFlow)
  else if ch = ':' ∧ (l.inFlow ∨ c.endsWordAt 1) then valueMark
  else if ch = '*' then node readAlias
  else if ch = '&' then node readAnchor
  else if ch = '!' then node readTag
  else if ch = '|' ∧ !l.inFlow then block false
  else if ch = '>' ∧ !l.inFlow then block true
  else if ch = '\'' then node (readQuoted false)
  else if ch = '"' then node (readQuoted true)
  else if l.startsPlain ch then plain
  else throw .yaml

/-- Counts the tokens before the first one that could still turn out to be a key. -/
def settle (l : Lexer) : Lexer :=
  let possible := l.candidates.filter fun (_, k) => !isStale l.cursor k
  { l with certain := possible.foldl (fun n (_, k) => min n k.position) l.tokens.size }

/-- All tokens that are left. -/
def run : Nat → Step Unit
  | 0 => throw .yaml
  | fuel + 1 => do
    modify settle
    modify fun l => toNextToken (l.cursor.room + 1) l
    forgetStale
    leaveBlocks (← get).cursor.column
    match (← get).cursor.rest with
    | [] => finish
    | ch :: _ =>
      token ch
      run fuel

end Lexer

/-- Tokens, and the fault in which they break off, if they do. -/
structure Tokens where
  list : List Token
  broken : Option Fault

/-- The tokens of a text. When it breaks off, those that were final before are still known. A byte
order mark at its start is passed over. -/
def Tokens.ofText (text : List Char) : Tokens :=
  let c := Cursor.ofText text
  let c := if c.has (fun ch => ch.toNat == 0xFEFF) 0 then c.step else c
  match (Lexer.run (text.length + 1)).run.run { cursor := c } with
  | (.ok _, l) => ⟨l.tokens.toList, none⟩
  | (.error fault, l) => ⟨l.tokens.toList.take l.certain, some fault⟩

end Yaml

end StepLoom
