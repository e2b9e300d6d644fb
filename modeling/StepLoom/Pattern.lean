import StepLoom.Value.Access

/-!
# Path patterns

A pattern selects files by their whole name. `**` and `**/*` stand for any text, `*` for a text
within one path segment, and every other character for itself; a run of three or more stars means
nothing.

`Pattern.pieces?` reads a pattern, `Pattern.accepts` matches a file name against its pieces, and
`Pattern.regex` writes the same language as an anchored regular expression that the extended POSIX
dialect and its common supersets read alike. File names are matched line-wise, as such an expression
matches: the any-text piece does not cross a line feed, and one line feed at the very end of the
name is passed over.
-/

namespace StepLoom

namespace Pattern

inductive Piece where
  /-- Any text without a line feed. -/
  | anyText
  /-- Any text without a slash. -/
  | segment
  | literal (c : Char)
deriving DecidableEq, Repr

/-- The pieces of a pattern, unless a run of stars is too long. -/
def pieces? : List Char → Option (List Piece)
  | [] => some []
  | '*' :: '*' :: '/' :: '*' :: rest => (pieces? rest).map (.anyText :: ·)
  | '*' :: '*' :: '*' :: _ => none
  | '*' :: '*' :: rest => (pieces? rest).map (.anyText :: ·)
  | '*' :: rest => (pieces? rest).map (.segment :: ·)
  | c :: rest => (pieces? rest).map (.literal c :: ·)

def parse (pattern : String) : Except Fault (List Piece) :=
  match pieces? pattern.toList with
  | some ps => .ok ps
  | none => .error (.invalidPattern pattern)

/-! ## Matching -/

/-- A text of the class `p` can be cut off so that `k` accepts the rest. -/
def afterSome (p : Char → Bool) (k : List Char → Bool) : List Char → Bool
  | [] => k []
  | c :: rest => k (c :: rest) || p c && afterSome p k rest

def accepts : List Piece → List Char → Bool
  | [], cs => cs == [] || cs == ['\n']
  | .literal _ :: _, [] => false
  | .literal c :: ps, d :: ds => c == d && accepts ps ds
  | .anyText :: ps, cs => afterSome (· ≠ '\n') (accepts ps) cs
  | .segment :: ps, cs => afterSome (· ≠ '/') (accepts ps) cs

/-- Whether the pattern selects the file. -/
def selects (pattern file : String) : Except Fault Bool := do
  return accepts (← parse pattern) file.toList

/-- Whether `p` holds of some member. Members are tried in order, and the first hit ends the
search. -/
def anyOf {α : Type} (p : α → Except Fault Bool) : List α → Except Fault Bool
  | [] => .ok false
  | x :: rest => do
    if ← p x then return true
    anyOf p rest

/-- Whether some pattern selects some file, file by file. A pattern is read when it is reached. -/
def selectsAny (patterns : List Value) (files : List String) : Except Fault Bool :=
  anyOf (fun file => anyOf (fun pattern => do selects (← pattern.string) file) patterns) files

/-! ## As a regular expression -/

/-- The characters that mean something in a regular expression. -/
def specials : List Char :=
  ['.', '^', '$', '+', '?', '(', ')', '[', ']', '\x7b', '\x7d', '|', '\\']

def Piece.regex : Piece → List Char
  | anyText => ['.', '*']
  | segment => ['[', '^', '/', ']', '*']
  | literal c => if specials.contains c then ['\\', c] else [c]

def regexOf (ps : List Piece) : String := String.ofList ('^' :: ps.flatMap Piece.regex ++ ['$'])

/-- The anchored regular expression of a pattern. -/
def regex (pattern : String) : Except Fault String := do
  return regexOf (← parse pattern)

end Pattern

end StepLoom
