import StepLoom.Local.Job

/-!
# Finding a step by name

A step is asked for by its id, by the repository of its action, or by the beginning of the name of
that repository; letter case does not matter. Each hit has a rank, and the lowest rank is the best:
zero for an id, one for `owner/name`, two for the name, and more for a beginning, the more the
longer the name.
-/

namespace StepLoom

/-- A step that a name may mean. -/
structure Candidate where
  rank : Nat
  step : Value

namespace Candidate

/-- Whether a step has the id `needle`, which is in lower case. -/
def hasId (needle : String) (fields : Fields) : Except Fault Bool :=
  match Fields.get? "id" fields with
  | none | some (.scalar .null) => .ok false
  | some v => do return Text.lower (← v.text) == needle

/-- The rank of an action for `needle`. -/
def rankOfAction (needle uses : String) : Option Nat :=
  let repository := Text.lower (Text.cutAt uses '@').1
  let name := (Text.split repository '/').getLast?.getD ""
  if repository == needle then some 1
  else if name == needle then some 2
  else if Text.startsWith needle name then some (2 + name.length)
  else none

def rankOf (needle : String) (step : Value) : Except Fault (Option Nat) := do
  let fields ← step.fieldsOf
  if ← hasId needle fields then return some 0
  match Value.given? (Fields.get? "uses" fields) with
  | some uses => return rankOfAction needle (← uses.stringMember)
  | none => return none

def amongSteps (needle : String) : List Value → Except Fault (List Candidate)
  | [] => .ok []
  | step :: rest => do
    let rank ← rankOf needle step
    let more ← amongSteps needle rest
    return (rank.map fun r => ⟨r, step⟩).toList ++ more

def amongJobs (needle : String) : Fields → Except Fault (List Candidate)
  | [] => .ok []
  | (_, job) :: rest => do
    let here ← amongSteps needle (← Value.membersOrNone (← job.orEmpty.field? "steps"))
    return here ++ (← amongJobs needle rest)

/-- The steps of a workflow that a name may mean, in order. -/
def inWorkflow (doc : Value) (name : String) : Except Fault (List Candidate) := do
  amongJobs (Text.lower name) (← (← doc.index "jobs").fieldsOf)

def inTemplates (directory : Path) (name : String) : List String → Act (List Candidate)
  | [] => return []
  | template :: rest => do
    let here ← liftM (inWorkflow (← Template.load (directory / template)) name)
    return here ++ (← inTemplates directory name rest)

/-- The steps that a name may mean: those of one file for `FILE.yml:NAME`, else those of all
templates. -/
def find (name : String) (templates : Path) : Act (List Candidate) := do
  match Text.split name ':' with
  | [file, needle] =>
    if Text.endsWith ".yml" file then
      liftM (inWorkflow (← Template.load (templates / file)) needle)
    else inTemplates templates name (← Template.namesIn templates)
  | _ => inTemplates templates name (← Template.namesIn templates)

/-- The first candidate of the lowest rank. -/
def best? : List Candidate → Option Candidate
  | [] => none
  | c :: rest =>
    match best? rest with
    | none => some c
    | some d => if d.rank < c.rank then some d else some c

/-- Runs the step that a name means best; the number of issues. -/
def runBest (name : String) (templates root : Path) (changed : List String) : Act Nat := do
  let found ← find name templates
  match best? found with
  | none => do
    Act.printError ("No steps matching " ++ name)
    return 0
  | some c => do
    if 1 < found.length then
      Act.print (toString found.length ++ " steps found matching " ++ name
        ++ ", selecting the best match.")
    match ← Step.run root changed c.step with
    | none => return 0
    | some f => return f.errors + (if f.failed then 1 else 0)

end Candidate

end StepLoom
