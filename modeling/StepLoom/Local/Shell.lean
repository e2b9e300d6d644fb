import StepLoom.Text.Ends
import StepLoom.Value.Access
import StepLoom.Workspace

/-!
# Running one command

A command's output is shown line by line behind a bar. A line that starts with the error marker is
an issue, and so is an end with another code than zero.
-/

namespace StepLoom

/-- What running a step has brought to light: the marked lines, and whether it ended well. -/
structure Findings where
  errors : Nat := 0
  failed : Bool := false
deriving DecidableEq, Repr

namespace Command

def text : Command → String
  | shell line => line
  | program words => " ".intercalate words

/-- A string is a line for the shell, a list of strings a program with its arguments. -/
def ofValue : Value → Except Fault Command
  | .scalar (.str line) => .ok (.shell line)
  | v => do return .program (← Value.strings (← v.members))

end Command

namespace Shell

def errorMarker : String := ":error:"

/-- The lines of a text. A line feed ends a line, and there is no line after the last one. -/
def linesOf (cs : List Char) : List String :=
  let pieces := Text.splitOnChar '\n' cs
  (if pieces.getLast? = some [] then pieces.dropLast else pieces).map String.ofList

/-- The lines of what a process printed; bytes that are no text are replaced, and line ends are
unified. -/
def outputLines (output : List UInt8) : List String :=
  linesOf (Text.unifyNewlines (Text.Utf8.decode output))

def isMarked (line : String) : Bool := Text.startsWith errorMarker line

def findings (ending : Ending) : Findings :=
  ⟨(outputLines ending.output).countP isMarked, ending.code != 0⟩

def showLines : List String → Act Unit
  | [] => return
  | line :: rest => do
    Act.print ("|  " ++ line)
    showLines rest

/-- The environment of a child process: ours, with colours asked for, and some more variables. -/
def childEnvironment (env extra : Environment) : Environment :=
  (env.put "FORCE_COLOR" "1").putAll extra

/-- Runs a command in a directory. -/
def run (command : Command) (cwd : Path) (extra : Environment) : Act Findings := do
  Act.print ("$ " ++ command.text)
  let ending ← Act.start command cwd (childEnvironment (← get).env extra)
  showLines (outputLines ending.output)
  if ending.code ≠ 0 then Act.print ("child process exited with code " ++ toString ending.code)
  return findings ending

end Shell

end StepLoom
