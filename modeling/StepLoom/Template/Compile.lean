import StepLoom.Compile.Workflow
import StepLoom.Template.Load
import StepLoom.Template.Render
import StepLoom.Text.Ends

/-!
# Compiling templates

`Template.compileFile` turns one template into the text of a workflow, and `Template.compileAll` all
templates of a directory. These are its entries with the ending `.yml`, except those whose name
starts with an underscore: they are there to be included.
-/

namespace StepLoom

namespace Template

/-- The directory of templates in a repository. -/
def defaultDirectory : String := ".github/workflow-templates"

/-- The directory of compiled workflows in a repository. -/
def outputDirectory : String := ".github/workflows"

def directoryVariable : String := "ACTIONS_WORKFLOW_TEMPLATES_DIR"

/-- Where the templates are: the environment says it, or they are at their usual place. -/
def findDirectory (root : Path) : Act Path := do
  match ← Act.nonemptyVariable directoryVariable with
  | some directory => return .ofText directory
  | none => return root / defaultDirectory

def findOutput (root : Path) : Path := root / outputDirectory

/-- The name of a template as the compiled workflow gives it: the way from the root if that is
known, or only the name of the file. -/
def sourceName (file : Path) (root : Option Path) : String :=
  match root with
  | some root => (file.relativeTo root).text
  | none => (Path.ofText file.name).text

/-- The text of the compiled workflow, which is also written to `output` if that is given. What is
compiled is a copy of the template. -/
def compileFile (file : Path) (output root : Option Path) : Act String := do
  let doc ← liftM (Workflow.compile (← load file).copy)
  let text ← liftM (render doc (sourceName file root))
  match output with
  | some output => Act.writeFile output text
  | none => pure ()
  return text

/-- Whether an entry of a directory is a template to compile. -/
def isTemplateName (name : String) : Bool := Text.endsWith ".yml" name && !Text.startsWith "_" name

/-- The templates of a directory by name. -/
def namesIn (directory : Path) : Act (List String) := do
  let tree := (← get).tree
  if !tree.isDirectory directory then throw (.templatesDirMissing directory.text)
  return Check.sortTexts ((tree.list directory).filter isTemplateName)

/-- A template and the workflow that it was compiled to. -/
structure Compiled where
  template : Path
  output : Path
deriving DecidableEq, Repr

def compileEach (directory output : Path) (root : Option Path) : List String → Act (List Compiled)
  | [] => return []
  | name :: rest => do
    discard (compileFile (directory / name) (some (output / name)) root)
    return ⟨directory / name, output / name⟩ :: (← compileEach directory output root rest)

/-- Compiles the templates of a directory one after another. A failure ends it, and what has been
written until then stays. -/
def compileAll (directory output : Path) (root : Option Path) : Act (List Compiled) := do
  compileEach directory output root (← namesIn directory)

end Template

end StepLoom
