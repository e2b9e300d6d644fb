import StepLoom.Cli

/-!
# The program

The files that a run may read are named on standard input, one on each line. They are read before
the run, and the files that the run changed are written after it. Git is only known to say that the
repository begins in the working directory. Child processes are shown and not started, so each of
them ends well.
-/

namespace StepLoom

namespace Program

/-- The lines of a stream. -/
partial def readLines (input : IO.FS.Stream) : IO (List String) := do
  let line ← input.getLine
  if line.isEmpty then return []
  return String.ofList (Text.dropEndWhile (· = '\n') line.toList) :: (← readLines input)

/-- The files of some names that are text, with their texts. -/
def readFiles : List String → IO (List (String × String))
  | [] => return []
  | name :: rest => do
    let here ← try pure [(name, ← IO.FS.readFile name)] catch _ => pure []
    return here ++ (← readFiles rest)

/-- The variables in the text in which the system lists them, each ended by a NUL. -/
def variablesOf (text : String) : Environment :=
  (Text.split text '\x00').filterMap fun entry =>
    if entry.isEmpty then none else some (Text.cutAt entry '=')

def environment : IO Environment := do
  try return variablesOf (← IO.FS.readFile "/proc/self/environ")
  catch _ => return []

def workspace : IO Workspace := do
  let files ← readFiles (← readLines (← IO.getStdin))
  return {
    tree := ({} : Tree).putFiles files
    env := ← environment
    git := [{ args := ["rev-parse", "--show-toplevel"], output := "." }] }

def writeFiles : List (Path × String) → IO Unit
  | [] => return
  | (p, text) :: rest => do
    IO.FS.createDirAll p.parent.text
    IO.FS.writeFile p.text text
    writeFiles rest

def usage : String :=
  "Usage: steploom [--human] [-v] [--root DIR] COMMAND [OPTIONS]\n"
    ++ "Commands: compile, show FILE, list-templates, run [TYPE...], step NAME"

/-- The last word on a run that has said nothing itself. -/
def explain : Exit → IO Unit
  | .misused => IO.eprintln usage
  | .crashed fault => IO.eprintln (fault.message?.getD "A template has data of an unexpected shape")
  | _ => return

end Program

end StepLoom

open StepLoom in
def main (args : List String) : IO UInt32 := do
  let before ← Program.workspace
  let (exit, after) := Cli.run args before
  Program.writeFiles (after.tree.changesSince before.tree)
  IO.print after.stdout
  IO.eprint after.stderr
  Program.explain exit
  return exit.code
