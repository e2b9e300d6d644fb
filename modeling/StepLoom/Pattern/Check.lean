import StepLoom.Pattern
import StepLoom.Value.Access

/-!
# Path checks

The workflow step that finds out whether a changed file matches one of some patterns. Each pattern
becomes one test of the changed files' names; the first test that hits sets the output `changed` to
true and ends the step, and after the last one it is set to false.
-/

namespace StepLoom

namespace Check

/-- The environment variable with the name of the branch that changes are compared with. -/
def baseRefVariable : String := "GITHUB_BASE_REF"

/-! ## Names -/

/-- Puts a text into its place among sorted texts. -/
def insertSorted (s : String) : List String → List String
  | [] => [s]
  | t :: rest => if s ≤ t then s :: t :: rest else t :: insertSorted s rest

def sortTexts (texts : List String) : List String := texts.foldr insertSorted []

/-- The name of the check for a set of patterns, in any order. -/
def nodeId (patterns : List String) : String := "paths-" ++ "#".intercalate (sortTexts patterns)

def isWordChar (c : Char) : Bool := c.isAlphanum || c == '_'

/-- Each run of other characters becomes one underscore; `inRun` tells whether one is open. -/
def wordsJoined (inRun : Bool) : List Char → List Char
  | [] => []
  | c :: rest =>
    if isWordChar c then c :: wordsJoined false rest
    else if inRun then wordsJoined true rest
    else '_' :: wordsJoined true rest

/-- The step id for some patterns, before it is told apart from others that come out the same. -/
def outputName (patterns : List String) : String :=
  "paths_" ++ "__".intercalate (patterns.map fun p => String.ofList (wordsJoined false p.toList))

/-! ## The script -/

/-- One word of a shell command. A single quote ends the quoted text, stands escaped, and opens it
again. -/
def shellQuote (s : String) : String :=
  String.ofList ('\'' :: s.toList.flatMap
    (fun c => if c = '\'' then ['\'', '\\', '\'', '\''] else [c]) ++ ['\''])

def test (regex : String) : String :=
  "if [[ -n $(git diff --name-only refs/remotes/origin/$" ++ baseRefVariable
    ++ " --relative | grep -E " ++ shellQuote regex ++ ") ]]\n"
    ++ "then\necho \"changed=true\" >> \"$GITHUB_OUTPUT\"\nexit 0\nfi"

def script (regexes : List String) : String :=
  "\n\n".intercalate (regexes.map test) ++ "\necho \"changed=false\" >> \"$GITHUB_OUTPUT\"\nexit 0"

/-- The regular expressions of some patterns; the first bad pattern fails. -/
def regexes : List String → Except Fault (List String)
  | [] => .ok []
  | p :: rest => do return (← Pattern.regex p) :: (← regexes rest)

/-- The step, with its id, a name that lists the patterns, and the script. -/
def step (id : String) (patterns : List String) : Except Fault Fields := do
  return [("id", Value.str id),
    ("name", Value.str ("Check paths: " ++ ", ".intercalate patterns)),
    ("run", Value.str (script (← regexes patterns)))]

end Check

end StepLoom
