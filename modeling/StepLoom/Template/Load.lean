import StepLoom.Value.Access
import StepLoom.Workspace
import StepLoom.Yaml.Reader

/-!
# Reading templates

A template is a workflow in YAML that may include other files for their setups. `Template.load`
reads one, adds the setups of the files that it includes, and checks its form. The keys that only
concern the tool stay in place.
-/

namespace StepLoom

namespace Template

/-! ## Reading -/

/-- The data in a YAML file. The places of its nodes are counted from `first` on; yields the first
place that is free behind them, too. -/
def readYaml (first : Nat) (file : Path) : Act (Value × Nat) := do
  liftM (Yaml.readFrom .workflow first (← Act.readFile file))

/-- The setups in a file that is included. -/
def includedSetups (first : Nat) (template : Path) (other : Value) : Act (Fields × Nat) := do
  let name ← liftM other.string
  let file := template.parent / name
  if !(← Act.has file) then throw (.includeMissing name template.text)
  let (data, next) ← readYaml first file
  match Value.given? (← liftM (data.orEmpty.field? "setup")) with
  | some setups => return (← liftM setups.asFields, next)
  | none => return ([], next)

/-- The setups with those of more files put to them, file after file. -/
def includeAll (template : Path) : (others : List Value) → (setups : Fields) → (first : Nat) →
    Act Fields
  | [], setups, _ => return setups
  | other :: rest, setups, first => do
    let (more, next) ← includedSetups first template other
    includeAll template rest (Fields.putAll setups more) next

/-- The document without its `include`, and with the setups of the included files. -/
def resolveIncludes (template : Path) (first : Nat) (doc : Value) : Act Value := do
  let (includes, fields) ← liftM (doc.take "include")
  match Value.given? includes with
  | none => return (doc.withFields fields).1
  | some includes => do
    let own ← match Value.given? (Fields.get? "setup" fields) with
      | some setups => liftM setups.asFields
      | none => pure []
    let setups ← includeAll template (← liftM includes.members) own first
    return (doc.withFields (Fields.put "setup" (.record setups) fields)).1

/-! ## Checking the form -/

/-- Each step is a mapping that does not both run a command and use an action. -/
def checkSteps (file : String) (job : Scalar) : (index : Nat) → List Value → Except Fault Unit
  | _, [] => .ok ()
  | index, step :: rest =>
    match step.fields? with
    | none => do throw (.stepNotAMapping file (← (Value.ofKey job).text) index)
    | some fields =>
      if Fields.has "run" fields && Fields.has "uses" fields then do
        throw (.stepRunsAndUses file (← (Value.ofKey job).text) index)
      else checkSteps file job (index + 1) rest

def checkJobs (file : String) : Fields → Except Fault Unit
  | [] => .ok ()
  | (id, job) :: rest =>
    match job.fields? with
    | none => do throw (.jobNotAMapping file (← (Value.ofKey id).text))
    | some fields => do
      checkSteps file id 0 (← Value.membersOrNone (Fields.get? "steps" fields))
      checkJobs file rest

/-- Each setup is a list of steps or a mapping. -/
def checkSetups (file : String) : Fields → Except Fault Unit
  | [] => .ok ()
  | (name, definition) :: rest =>
    if definition.isMap || definition.isList then checkSetups file rest
    else do throw (.setupNotSteps file (← (Value.ofKey name).text))

/-- A workflow is a mapping with jobs, and perhaps with setups. -/
def check (file : String) (doc : Value) : Except Fault Unit :=
  match doc.fields? with
  | none => .error (.notAWorkflow file)
  | some fields =>
    match Fields.get? "jobs" fields with
    | none => .error (.notAWorkflow file)
    | some jobs =>
      match jobs.fields? with
      | none => .error (.jobsNotAMapping file)
      | some jobs => do
        checkJobs file jobs
        checkSetups file (← Value.fieldsOrNone (Fields.get? "setup" fields))

/-! ## Loading -/

def load (file : Path) : Act Value := do
  if !(← Act.has file) then throw (.templateMissing file.text)
  let (v, next) ← readYaml 0 file
  let doc ← if v.isMap then resolveIncludes file next v else pure v
  liftM (check file.text doc)
  return doc

end Template

end StepLoom
