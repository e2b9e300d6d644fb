import StepLoom.Cli.Arguments
import StepLoom.Cli.Exit
import StepLoom.Workspace.Tree

/-!
# What a command line asks for

Settings come first, then the name of a command, then the command's own options and operands. A
command line that asks for nothing that the tool knows ends the run, and so does the name of a root
or of a template that no path can have.
-/

namespace StepLoom

/-- What holds for every command. -/
structure Settings where
  human : Bool := false
  verbose : Bool := false
  root : Option String := none
deriving DecidableEq, Repr

inductive Request where
  /-- Compile every template of a directory. -/
  | compile (templates output : Option String)
  /-- Show what one template compiles to. -/
  | showOne (template : String)
  /-- List the templates of a directory. -/
  | list (templates : Option String)
  /-- Run the jobs of some types. -/
  | run (types : List String) (templates base : Option String)
  /-- Run the step of a name. -/
  | step (name : String) (templates base : Option String)
deriving DecidableEq, Repr

namespace Settings

def knobs : List Knob :=
  [{ name := "--human", takesValue := false },
    { name := "--verbose", letter := some 'v', takesValue := false },
    { name := "--root" }]

def ofArguments (args : Arguments) : Settings :=
  ⟨args.hasFlag "--human", args.hasFlag "--verbose", args.given? "--root"⟩

/-- Whether a text names a file; one that ends in a slash names a directory. -/
def namesFile (tree : Tree) (text : String) : Bool :=
  tree.isFile (.ofText text) && ((Text.split text '/').getLast?.any Path.isName)

/-- The root must not be a file. -/
def check (tree : Tree) (s : Settings) : Except Exit Unit := do
  match s.root with
  | none => return
  | some root =>
    if Path.holdsNul root then throw (.crashed .embeddedNul)
    if namesFile tree root then throw .misused

end Settings

namespace Request

def templatesKnob : Knob := { name := "--templates-dir" }
def outputKnob : Knob := { name := "--output-dir" }
def baseKnob : Knob := { name := "--base-ref" }

/-- The options of a command. -/
def knobsOf : String → Option (List Knob)
  | "compile" => some [templatesKnob, outputKnob]
  | "show" => some []
  | "list-templates" => some [templatesKnob]
  | "run" | "step" => some [templatesKnob, baseKnob]
  | _ => none

/-- A template to show must not be a directory. -/
def checkTemplate (tree : Tree) (template : String) : Except Exit Unit := do
  if Path.holdsNul template then throw (.crashed .embeddedNul)
  if !template.isEmpty && tree.isDirectory (.ofText template) then throw .misused

/-- The request of a command with its arguments. -/
def ofCommand (tree : Tree) (command : String) (args : Arguments) : Except Exit Request := do
  let templates := args.given? "--templates-dir"
  let base := args.given? "--base-ref"
  match command, args.operands with
  | "compile", [] => return .compile templates (args.given? "--output-dir")
  | "show", template :: more =>
    checkTemplate tree template
    if more.isEmpty then return .showOne template else throw .misused
  | "list-templates", [] => return .list templates
  | "run", types => return .run types templates base
  | "step", [name] => return .step name templates base
  | _, _ => throw .misused

/-- What is there, or else the end of a run that is misused. -/
def orMisused {α : Type} : Option α → Except Exit α
  | some a => .ok a
  | none => .error .misused

/-- The settings and the request of a command line. -/
def read (tree : Tree) (line : List String) : Except Exit (Settings × Request) := do
  let args ← orMisused (Arguments.read Settings.knobs false line)
  let settings := Settings.ofArguments args
  settings.check tree
  match args.operands with
  | [] => throw .misused
  | command :: rest =>
    let own ← orMisused (Arguments.read (← orMisused (knobsOf command)) true rest)
    return (settings, ← ofCommand tree command own)

end Request

end StepLoom
