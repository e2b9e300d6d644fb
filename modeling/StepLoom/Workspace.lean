import StepLoom.Text.Terminal
import StepLoom.Text.Utf8
import StepLoom.Workspace.Tree

/-!
# The workspace

A workspace is all that a run of the tool reads and changes: the files of the working directory, the
environment, what git and the child processes answer, and what has been printed. The tool's actions
are functions from a workspace to a result and the next workspace (`Act`), and an action that fails
keeps what it changed before.

Git and child processes are not part of the tool. What they will answer is given with the workspace,
and each of them that is started is recorded in `calls`.
-/

namespace StepLoom

/-- What is started: a line for the shell, or a program with its arguments. -/
inductive Command where
  | shell (line : String)
  | program (words : List String)
deriving DecidableEq, Repr

abbrev Environment := List (String × String)

/-- Something that was started, and in which directory; git runs in the directory of the tool if
none is named. -/
inductive Call where
  | git (args : List String) (cwd : Option String)
  | process (command : Command) (cwd : String) (env : Environment)
deriving DecidableEq, Repr

/-- The answer of git to some arguments: the files that it writes and what it prints. -/
structure GitAnswer where
  args : List String
  output : String := ""
  code : Int := 0
  writes : List (String × String) := []
deriving DecidableEq, Repr

/-- How a child process ends, and what it has printed until then. -/
structure Ending where
  output : List UInt8 := []
  code : Int := 0
deriving DecidableEq, Repr

structure Workspace where
  tree : Tree := {}
  env : Environment := []
  /-- What git answers; the first answer to the arguments counts, however often they are given. -/
  git : List GitAnswer := []
  /-- How the child processes to come end, one after another. -/
  endings : List Ending := []
  stdout : String := ""
  stderr : String := ""
  calls : List Call := []
deriving DecidableEq, Repr

/-- An action on a workspace. -/
abbrev Act := ExceptT Fault (StateM Workspace)

namespace Environment

def get? (env : Environment) (name : String) : Option String :=
  (env.find? fun (k, _) => k == name).map (·.2)

/-- The first place of a name stays; a new name goes to the end. -/
def put (name value : String) : Environment → Environment
  | [] => [(name, value)]
  | (k, v) :: rest => if k = name then (k, value) :: rest else (k, v) :: put name value rest

def putAll (env extra : Environment) : Environment :=
  extra.foldl (fun acc (k, v) => put k v acc) env

end Environment

namespace Act

/-! ## Output -/

def printText (text : String) : Act Unit :=
  modify fun w => { w with stdout := w.stdout ++ Text.Terminal.dropEscapes text }

def print (line : String) : Act Unit := printText (line ++ "\n")

def printError (line : String) : Act Unit :=
  modify fun w => { w with stderr := w.stderr ++ Text.Terminal.dropEscapes (line ++ "\n") }

/-! ## Environment -/

def lookUpVariable (name : String) : Act (Option String) := do return (← get).env.get? name

/-- The value of a variable, unless it is unset or empty. -/
def nonemptyVariable (name : String) : Act (Option String) := do
  return (← lookUpVariable name).filter fun v => !v.isEmpty

def refuseNul (text : String) : Act Unit :=
  if Path.holdsNul text then throw .embeddedNul else return

def setVariable (name value : String) : Act Unit := do
  refuseNul value
  modify fun w => { w with env := w.env.put name value }

/-! ## Files -/

def has (p : Path) : Act Bool := do return (← get).tree.has p

/-- The absolute path of the same place. -/
def resolve (p : Path) : Act Path := do
  refuseNul p.text
  return p.resolve

/-- The text of a file, its line ends unified. -/
def readFile (p : Path) : Act String := do
  refuseNul p.text
  match (← get).tree.at? p with
  | some (.file text) => return String.ofList (Text.unifyNewlines text.toList)
  | some .directory => throw .isDirectory
  | none => throw (.fileMissing p.text)

/-- Writes a file into a directory that is made if it is not there. -/
def writeFile (p : Path) (text : String) : Act Unit := do
  refuseNul p.text
  let tree ← liftM ((← get).tree.makeDirectories p.parent)
  modify fun w => { w with tree }
  let tree ← liftM (tree.write p text)
  modify fun w => { w with tree }

/-! ## Git and child processes -/

/-- The code that git ends with when it has no answer. -/
def gitFailure : Int := 128

/-- Runs git; what it prints, without blanks at both ends. -/
def git (args : List String) (cwd : Option String) : Act String := do
  modify fun w => { w with calls := w.calls ++ [Call.git args cwd] }
  match (← get).git.find? fun a => a.args == args with
  | none => throw (.gitFailed args gitFailure)
  | some a =>
    if a.code = 0 then
      modify fun w => { w with tree := w.tree.putFiles a.writes }
      return Text.strip a.output
    else throw (.gitFailed args a.code)

/-- Runs a child process in a directory and waits for its end. -/
def start (command : Command) (cwd : Path) (env : Environment) : Act Ending := do
  let w ← get
  set { w with calls := w.calls ++ [Call.process command cwd.text env], endings := w.endings.tail }
  return w.endings.headD {}

end Act

end StepLoom
