import StepLoom.Pattern.Check
import StepLoom.Proofs.Check.Grep
import StepLoom.Proofs.Condition.Scan

/-!
# What a script does

The part of the shell's language that checks are written in: words with quoted parts and variables,
commands whose output is appended to a file, `exit`, and tests whether a pipeline prints something.
Whatever else a script holds, it has no meaning here.

**Theorem (`run_shellQuote`).** A quoted text is one word, and comes out as it was.
-/

namespace StepLoom

namespace Bash

/-! ## Tokens -/

/-- A piece of a word. -/
inductive Piece
  | char (c : Char)
  /-- A character that is quoted or escaped. -/
  | quoted (c : Char)
  | variable (name : List Char)
  deriving DecidableEq

abbrev Word := List Piece

inductive Token
  | word (w : Word)
  | newline
  | pipe
  /-- The output goes to the end of a file. -/
  | append
  /-- A pipeline begins whose output is a word. -/
  | open
  | close
  deriving DecidableEq

/-- What has been read of a token that may go on. -/
inductive Pending
  | between
  | word (w : Word)
  | escape (w : Word)
  | single (w : Word)
  | double (w : Word)
  | dollar (w : Word) (inQuotes : Bool)
  | name (w : Word) (name : List Char) (inQuotes : Bool)
  /-- One of the two characters of `append`. -/
  | half
  deriving DecidableEq

def isNameHead (c : Char) : Bool := c.isAlpha || c == '_'

def isNameChar (c : Char) : Bool := c.isAlphanum || c == '_'

/-- Characters whose meaning is left out. -/
def isOther (c : Char) : Bool := c ∈ ";&<>()|`#*?~!\t\r\x7b\x7d".toList

/-- A character that ends a word. -/
def separator? (c : Char) : Option (List Token) :=
  if c = ' ' then some []
  else if c = '\n' then some [.newline]
  else if c = '|' then some [.pipe]
  else if c = ')' then some [.close]
  else none

/-- A character of a word, outside of quotes. -/
def extend (w : Word) (c : Char) : Option (List Token × Pending) :=
  if c = '\'' then some ([], .single w)
  else if c = '"' then some ([], .double w)
  else if c = '\\' then some ([], .escape w)
  else if c = '$' then some ([], .dollar w false)
  else if isOther c then none
  else some ([], .word (w ++ [.char c]))

def unquoted (w : Word) (c : Char) : Option (List Token × Pending) :=
  match separator? c with
  | some ts => some (.word w :: ts, .between)
  | none => extend w c

def inDouble (w : Word) (c : Char) : Option (List Token × Pending) :=
  if c = '"' then some ([], .word w)
  else if c = '$' then some ([], .dollar w true)
  else if c = '\\' ∨ c = '`' then none
  else some ([], .double (w ++ [.quoted c]))

def step : Pending → Char → Option (List Token × Pending)
  | .between, c =>
    match separator? c with
    | some ts => some (ts, .between)
    | none => if c = '>' then some ([], .half) else extend [] c
  | .word w, c => unquoted w c
  | .escape w, c => if c = '\n' then none else some ([], .word (w ++ [.quoted c]))
  | .single w, c => some ([], if c = '\'' then .word w else .single (w ++ [.quoted c]))
  | .double w, c => inDouble w c
  | .dollar w inQuotes, c =>
    if isNameHead c then some ([], .name w [c] inQuotes)
    else if c = '(' ∧ w = [] ∧ inQuotes = false then some ([.open], .between)
    else none
  | .name w name inQuotes, c =>
    if isNameChar c then some ([], .name w (name ++ [c]) inQuotes)
    else if inQuotes then inDouble (w ++ [.variable name]) c
    else unquoted (w ++ [.variable name]) c
  | .half, c => if c = '>' then some ([.append], .between) else none

def finish : Pending → Option (List Token)
  | .between => some []
  | .word w => some [.word w]
  | .name w name false => some [.word (w ++ [.variable name])]
  | _ => none

def scan : Scan Pending Token := ⟨.between, step, finish⟩

/-! ## Statements -/

/-- A command, and the file that its output is appended to. -/
structure Command where
  words : List Word
  file : Option Word
  deriving DecidableEq

inductive Statement
  | command (c : Command)
  /-- Some commands, if the pipeline prints something. -/
  | ifOutput (pipeline : List (List Word)) (body : List Command)
  deriving DecidableEq

inductive Line
  | blank
  | command (c : Command)
  | ifOutput (pipeline : List (List Word))
  | opening
  | closing
  deriving DecidableEq

/-- A word without quotes and variables. -/
def plain (s : String) : Word := s.toList.map .char

/-- The commands of a pipeline up to its end, and what follows. -/
def pipelineOf (words : List Word) : List Token → Option (List (List Word) × List Token)
  | .word w :: ts => pipelineOf (words ++ [w]) ts
  | .pipe :: ts => (pipelineOf [] ts).map fun (more, ts) => (words :: more, ts)
  | .close :: ts => some ([words], ts)
  | _ => none

def commandOf (words : List Word) : List Token → Option Command
  | [] => some ⟨words, none⟩
  | [.append, .word file] => some ⟨words, some file⟩
  | .word w :: ts => commandOf (words ++ [w]) ts
  | _ => none

/-- The test of an `if`. -/
def testOf : List Token → Option (List (List Word))
  | .word w :: .word w' :: .open :: ts =>
    if w = plain "[[" ∧ w' = plain "-n" then
      match pipelineOf [] ts with
      | some (pipeline, [.word w]) => if w = plain "]]" then some pipeline else none
      | _ => none
    else none
  | _ => none

def lineOf : List Token → Option Line
  | [] => some .blank
  | .word w :: ts =>
    if w = plain "if" then (testOf ts).map .ifOutput
    else if w = plain "then" ∧ ts = [] then some .opening
    else if w = plain "fi" ∧ ts = [] then some .closing
    else (commandOf [w] ts).map .command
  | _ => none

/-- The lines after some tokens of the first one. -/
def linesOf (line : List Token) : List Token → List (List Token)
  | [] => [line]
  | .newline :: ts => line :: linesOf [] ts
  | t :: ts => linesOf (line ++ [t]) ts

/-- Where a line stands. -/
inductive Place
  | top
  /-- After the test of an `if`. -/
  | tested (pipeline : List (List Word))
  | body (pipeline : List (List Word)) (body : List Command)

def statements : Place → List (List Token) → Option (List Statement)
  | .top, [] => some []
  | _, [] => none
  | place, line :: lines =>
    match place, lineOf line with
    | place, some .blank => statements place lines
    | .top, some (.command c) => (statements .top lines).map (.command c :: ·)
    | .top, some (.ifOutput pipeline) => statements (.tested pipeline) lines
    | .tested pipeline, some .opening => statements (.body pipeline []) lines
    | .body pipeline body, some (.command c) => statements (.body pipeline (body ++ [c])) lines
    | .body pipeline body, some .closing =>
      (statements .top lines).map (.ifOutput pipeline body :: ·)
    | _, _ => none

/-- The statements of a script. -/
def parse (script : List Char) : Option (List Statement) :=
  (scan.output .between script).bind fun ts => statements .top (linesOf [] ts)

/-! ## Running -/

/-- The variables, and what git prints for some arguments. -/
structure World where
  value : List Char → List Char
  git : List (List Char) → List Char

namespace World

variable (world : World)

def piece : Piece → List Char
  | .char c => [c]
  | .quoted c => [c]
  | .variable name => world.value name

/-- A word with the values of its variables. They are not split, as names of branches have no
blanks. -/
def word (w : Word) : List Char := w.flatMap world.piece

/-- What a command of a pipeline prints. -/
def printed (input : List Char) (words : List Word) : Option (List Char) :=
  match words.map world.word with
  | name :: args =>
    if name = "git".toList then some (world.git args)
    else if name = "grep".toList then
      match args with
      | [flag, argument] => if flag = "-E".toList then Grep.output argument input else none
      | _ => none
    else none
  | [] => none

/-- A pipeline prints more than line feeds. -/
def prints (pipeline : List (List Word)) : Option Bool :=
  (pipeline.foldlM world.printed []).map fun text => text.any (· ≠ '\n')

/-- What is appended to which files, and whether the script is at its end. -/
abbrev Effect := List (List Char × List Char) × Bool

def command (c : Command) : Option Effect :=
  match c.words.map world.word, c.file with
  | [name, code], none =>
    if name = "exit".toList ∧ code = "0".toList then some ([], true) else none
  | [name, text], some file =>
    if name = "echo".toList ∧ text.head? ≠ some '-' then
      some ([(world.word file, text ++ ['\n'])], false)
    else none
  | _, _ => none

end World

/-- One after another, until the end of the script. -/
def inOrder {α : Type} (effect : α → Option World.Effect) : List α → Option World.Effect
  | [] => some ([], false)
  | x :: rest => do
    let (written, ended) ← effect x
    if ended then return (written, true)
    let (more, ended) ← inOrder effect rest
    return (written ++ more, ended)

namespace World

variable (world : World)

def statement : Statement → Option Effect
  | .command c => world.command c
  | .ifOutput pipeline body => do
    if ← world.prints pipeline then inOrder world.command body
    else return ([], false)

/-- What a script appends to which files. -/
def run (script : List Char) : Option (List (List Char × List Char)) := do
  let (written, _) ← inOrder world.statement (← parse script)
  return written

end World

/-! ## Quoting -/

variable {w : Word} {cs : List Char}

theorem run_quoted : scan.run (.single w)
    (cs.flatMap (fun c => if c = '\'' then ['\'', '\\', '\'', '\''] else [c])) =
      some ([], .single (w ++ cs.map .quoted)) := by
  induction cs generalizing w with
  | nil => simp
  | cons c rest ih =>
    have hchar : scan.run (.single w) (if c = '\'' then ['\'', '\\', '\'', '\''] else [c]) =
        some ([], .single (w ++ [.quoted c])) := by
      split_ifs with hc
      · rw [hc]
        rfl
      · have hstep : scan.step (.single w) c = some ([], .single (w ++ [.quoted c])) :=
          congrArg (fun p => some ([], p)) (if_neg hc)
        simp [Scan.run_cons_of_step _ hstep]
    rw [List.flatMap_cons, Scan.run_append_of_run _ hchar, ih]
    simp

/-- **A quoted text is one word.** -/
theorem run_shellQuote {s : String} :
    scan.run .between (Check.shellQuote s).toList = some ([], .word (s.toList.map .quoted)) := by
  have hopen : scan.step .between '\'' = some ([], .single []) := rfl
  have hclose : ∀ w, scan.run (.single w) ['\''] = some ([], .word w) := fun _ => rfl
  rw [Check.shellQuote, String.toList_ofList, List.cons_append, Scan.run_cons_of_step _ hopen,
    Scan.run_append_of_run _ run_quoted, hclose]
  rfl

end Bash

end StepLoom
