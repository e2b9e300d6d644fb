import StepLoom.Cli.Request
import StepLoom.Cli.Table
import StepLoom.Local.Changes
import StepLoom.Local.Search
import StepLoom.Text.Json

/-!
# The commands

`Cli.run` carries out a command line in a workspace and says how it ends. Results are printed as
JSON, or as tables on demand. A failure that a command expects is reported as JSON on the error
output; other failures end the run without a word.
-/

namespace StepLoom

namespace Fault

/-- Something that has to be there is not there. -/
def isMissing : Fault → Bool
  | templateMissing _ | includeMissing .. | templatesDirMissing _ | actionMissing ..
  | fileMissing _ => true
  | _ => false

def isFromGit : Fault → Bool
  | gitFailed .. => true
  | _ => false

/-- Data or files have a shape that the checks let through and no operation is made for. -/
def isInternal : Fault → Bool
  | illTyped | noMember | missingKey | outOfRange | badEscape | tooDeep | tooLarge | endless
  | isDirectory | fileExists _ | notADirectory _ => true
  | _ => false

/-- What the user is told. -/
def report (f : Fault) : String := f.message?.getD "The file is not readable as YAML"

end Fault

namespace Cli

/-! ## Output -/

def printResult (settings : Settings) (v : Value) : Act Unit :=
  if settings.human then Table.print v else Act.print (Text.Json.write v)

def errorText (f : Fault) : String := Text.Json.write (.record [("error", .str f.report)])

/-- Tells the user about the failures of a class. -/
def reporting (isExpected : Fault → Bool) (act : Act Exit) : Act Exit := do
  try act
  catch f =>
    if isExpected f then
      Act.printError (errorText f)
      return .reported f
    else throw f

/-- The last line of a run; runs are carried out on a snapshot, so no time passes. -/
def elapsed : String := "Finished in 0.00s"

def finish (issues : Nat) : Act Exit := do
  if issues = 0 then
    Act.print ("✅  All clear! " ++ elapsed ++ "  ✅")
    return .success
  else
    Act.print ("❌  " ++ toString issues ++ " " ++ wordFor issues "issue" "issues" ++ " found. "
      ++ elapsed ++ "  ❌")
    return .issues

/-! ## Commands -/

/-- The root that the settings name. -/
def givenRoot (settings : Settings) : Option Path :=
  settings.root.map fun text => (Path.ofText text).resolve

/-- The root of the repository, which git is asked for if the settings do not name it. -/
def findRoot (settings : Settings) : Act Path := do
  match givenRoot settings with
  | some root => return root
  | none => Git.root none

def templatesIn (root : Path) (asked : Option String) : Act Path := do
  match asked with
  | some directory => return .ofText directory
  | none => Template.findDirectory root

def compiledValue (c : Template.Compiled) : Value :=
  .record [("template", .str c.template.text), ("output", .str c.output.text)]

/-- What compiling reports: everything but failures of git and internal ones. -/
def isCompileFault (f : Fault) : Bool := !f.isInternal && !f.isFromGit

def compile (settings : Settings) (templates output : Option String) : Act Exit := do
  let root ← findRoot settings
  let target := (output.map Path.ofText).getD (Template.findOutput root)
  reporting isCompileFault do
    let compiled ← Template.compileAll (← templatesIn root templates) target (some root)
    printResult settings (.list (compiled.map compiledValue))
    return .success

def showOne (settings : Settings) (template : String) : Act Exit :=
  reporting isCompileFault do
    Act.printText (← Template.compileFile (.ofText template) none (givenRoot settings))
    return .success

def list (settings : Settings) (templates : Option String) : Act Exit :=
  reporting Fault.isMissing do
    let directory ← match templates with
      | some directory => pure (.ofText directory)
      | none => do Template.findDirectory (← findRoot settings)
    printResult settings (.list ((← Template.namesIn directory).map .str))
    return .success

def isRunFault (f : Fault) : Bool := !f.isInternal

def runTypes (settings : Settings) (types : List String) (templates base : Option String) :
    Act Exit :=
  reporting isRunFault do
    let root ← findRoot settings
    let directory ← templatesIn root templates
    let changed ← Changes.prepare root base
    finish (← JobRun.runTypes directory root changed (JobRun.typesFor types))

def runStep (settings : Settings) (name : String) (templates base : Option String) : Act Exit :=
  reporting isRunFault do
    let root ← findRoot settings
    let changed ← Changes.prepare root base
    finish (← Candidate.runBest name (← templatesIn root templates) root changed)

def perform (settings : Settings) : Request → Act Exit
  | .compile templates output => compile settings templates output
  | .showOne template => showOne settings template
  | .list templates => list settings templates
  | .run types templates base => runTypes settings types templates base
  | .step name templates base => runStep settings name templates base

/-- Carries out a command line. -/
def run (line : List String) (w : Workspace) : Exit × Workspace :=
  match Request.read w.tree line with
  | .error e => (e, w)
  | .ok (settings, request) =>
    match (perform settings request).run.run w with
    | (.ok e, w) => (e, w)
    | (.error f, w) => (.crashed f, w)

end Cli

end StepLoom
