import StepLoom.Local.Step
import StepLoom.Template.Compile

/-!
# Running jobs

Jobs are chosen by type: a job is of a type when its id is the type or ends with it behind a dash or
an underscore. The jobs of a workflow take part only if it runs on pull requests and the changed
files trigger it.

A failing step ends its job. Other jobs still run. All marked lines and all failures are counted.
-/

namespace StepLoom

/-- The word for a number of things. -/
def wordFor (n : Int) (one many : String) : String := if n = 1 then one else many

/-- A job to run, with the file that it is from. -/
structure JobRun where
  id : Value
  workflow : String
  steps : List Value

namespace JobRun

/-! ## Choosing -/

/-- Whether an id is of a type. -/
def isOfType (type id : String) : Bool :=
  id == type || Text.endsWith ("-" ++ type) id || Text.endsWith ("_" ++ type) id

def defaultType : String := "prepare"

/-- Types that stand for others. -/
def aliases : List (String × List String) :=
  [("test", ["unit"]), ("test:long", ["unit:long"]),
    ("prepare", ["autofix", "lint", "unit"]), ("pr", ["autofix", "lint", "unit"])]

def typesOf (type : String) : List String :=
  match aliases.find? fun (k, _) => k == type with
  | some (_, types) => types
  | none => [type]

/-- The types that some words ask for. -/
def typesFor (words : List String) : List String :=
  (if words.isEmpty then [defaultType] else words).flatMap typesOf

def trigger : String := "pull_request"

/-- Whether the patterns under a trigger select a changed file. -/
def isTriggeredBy (changed : List String) (condition : Value) : Except Fault Bool := do
  match Value.given? (← condition.orEmpty.field? "paths") with
  | some paths => Pattern.selectsAny (← Value.oneOrMany (some paths)) changed
  | none => return true

/-- Whether a workflow runs on pull requests with the given changes. -/
def isTriggered (doc : Value) (changed : List String) : Except Fault Bool := do
  match Value.given? (← doc.field? "on") with
  | none => return false
  | some (.scalar (.str event)) => return event == trigger
  | some events => do
    if !(← events.contains (.str trigger)) then return false
    if events.isList then return true
    isTriggeredBy changed (← events.index trigger)

/-- The jobs of a type among those of a workflow. -/
def ofType (workflow type : String) : Fields → Except Fault (List JobRun)
  | [] => .ok []
  | (id, job) :: rest => do
    if isOfType type (← (Value.ofKey id).stringMember) then
      let steps ← Value.membersOrNone (← job.orEmpty.field? "steps")
      return ⟨.ofKey id, workflow, steps⟩ :: (← ofType workflow type rest)
    else ofType workflow type rest

/-- The jobs of a type in a template, none if the changes do not trigger it. -/
def select (template : Path) (type : String) (changed : List String) : Act (List JobRun) := do
  let doc ← Template.load template
  if ← liftM (isTriggered doc changed) then
    liftM (do ofType template.name type (← (← doc.index "jobs").fieldsOf))
  else return []

def selectAll (directory : Path) (type : String) (changed : List String) :
    List String → Act (List JobRun)
  | [] => return []
  | name :: rest => do
    let jobs ← select (directory / name) type changed
    return jobs ++ (← selectAll directory type changed rest)

/-! ## Running -/

/-- Runs steps until one of them fails; the number of issues. -/
def runSteps (root : Path) (changed : List String) (id : String) : List Value → Act Nat
  | [] => return 0
  | step :: rest => do
    match ← Step.run root changed step with
    | none => runSteps root changed id rest
    | some found =>
      if found.failed then
        Act.printError ("---- ❌ Job " ++ id ++ " Failed ----")
        return found.errors + 1
      else return found.errors + (← runSteps root changed id rest)

/-- The last word on a job. -/
def verdict (id : String) (issues : Nat) : String :=
  if issues = 0 then "✅  Finished job " ++ id
  else "❗ Finished job " ++ id ++ " with " ++ toString issues ++ " "
    ++ wordFor issues "issue" "issues"

def run (root : Path) (changed : List String) (job : JobRun) : Act Nat := do
  let id ← liftM job.id.text
  Act.print ("🚜  Running job " ++ job.workflow ++ ":" ++ id)
  let issues ← runSteps root changed id job.steps
  Act.print (verdict id issues)
  Act.print ""
  return issues

/-- Runs jobs one after another; the number of issues in all of them. -/
def runAll (root : Path) (changed : List String) : List JobRun → Act Nat
  | [] => return 0
  | job :: rest => do return (← run root changed job) + (← runAll root changed rest)

/-- Runs the jobs of a type in all templates of a directory. -/
def runType (type : String) (templates root : Path) (changed : List String) : Act Nat := do
  Act.print ("----- Running jobs matching '" ++ type ++ "' -----")
  let jobs ← selectAll templates type changed (← Template.namesIn templates)
  if jobs.isEmpty then
    Act.printError ("No jobs matching " ++ type)
    Act.print ""
    return 0
  else
    Act.print ""
    runAll root changed jobs

/-- Runs the jobs of several types; the number of issues. -/
def runTypes (templates root : Path) (changed : List String) : List String → Act Nat
  | [] => return 0
  | type :: rest => do
    return (← runType type templates root changed) + (← runTypes templates root changed rest)

end JobRun

end StepLoom
