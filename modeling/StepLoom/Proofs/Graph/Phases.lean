import StepLoom.Compile.Job

/-!
# The phases of building

Adding a step first settles its path check and then enters the step: its node comes, and what the
node waits for. A job adds its steps first and then enters itself: its own setups, and the checkout.
What is said about building is proved phase by phase along these equations.
-/

namespace StepLoom

namespace Graph

/-! ## Steps -/

/-- The node of a step and what it waits for, once its path check is there. `popped` is the step
without its `setup` field and `plain` the one without its extension keys. -/
def enterStep (table : Value) (index : Nat) (content : Value) (popped plain : Value × List Edit)
    (setup : Option Value) (pathIds : List String) : Build (Value × List Edit) := do
  let isNew := !(← get).has (stepId index)
  addNode (stepId index) .step content pathIds
  refresh isNew (stepId index) popped.1
  replay popped.2
  awaitSetups (table.applyAll popped.2) (stepId index) setup pathIds
  refresh isNew (stepId index) plain.1
  replay plain.2
  if 0 < index then addEdge (stepId index) (stepId (index - 1))
  return plain

/-- What `enterStep` does once the node is there. -/
def finishStep (table : Value) (index : Nat) (isNew : Bool) (popped plain : Value × List Edit)
    (setup : Option Value) (pathIds : List String) : Build (Value × List Edit) := do
  refresh isNew (stepId index) popped.1
  replay popped.2
  awaitSetups (table.applyAll popped.2) (stepId index) setup pathIds
  refresh isNew (stepId index) plain.1
  replay plain.2
  if 0 < index then addEdge (stepId index) (stepId (index - 1))
  return plain

theorem enterStep_eq (table : Value) (index : Nat) (content : Value)
    (popped plain : Value × List Edit) (setup : Option Value) (pathIds : List String) :
    enterStep table index content popped plain setup pathIds = (do
      let isNew := !(← get).has (stepId index)
      addNode (stepId index) .step content pathIds
      finishStep table index isNew popped plain setup pathIds) := rfl

/-- The path check of a step, if it has patterns. -/
def usePaths (paths : Option Value) : Build (List String) := do
  let patterns ← liftM (Value.oneOrMany paths)
  if patterns.isEmpty then return []
  return [← useCheck (← liftM (Value.strings patterns))]

theorem addStep_eq (table : Value) (index : Nat) (step : Value) : addStep table index step = (do
    let (paths, fields) ← liftM (step.take "paths")
    let pathIds ← usePaths paths
    enterStep table index (step.withFields fields).1
      (step.withFields (Fields.erase "setup" fields))
      (step.withFields (extensionKeys.foldl (fun fs k => Fields.erase k fs) fields))
      (Fields.get? "setup" fields) pathIds) := by
  refine bind_congr fun (paths, fields) => ?_
  dsimp only
  rw [usePaths, bind_assoc]
  refine bind_congr fun patterns => ?_
  cases patterns with
  | nil => rfl
  | cons p rest =>
    simp only [List.isEmpty_cons, Bool.false_eq_true, if_false, bind_assoc]
    rfl

/-! ## Jobs -/

/-- The job's own setups and the checkout, once the steps are there. -/
def enterJob (table job : Value) (source : Option Value) (plains : List Value) (log : List Edit) :
    Build (Value × List Edit) := do
  let fields ← liftM (job.applyAll log).fieldsOf
  let setup := Fields.get? "setup" fields
  let fields := Fields.erase "setup" fields
  let (job, edits) := job.withFields
    (if source.isSome then Fields.put "steps" (.list plains) fields else fields)
  replay edits
  let table := table.applyAll (log ++ edits)
  if source.isSome then awaitSetups table (stepId 0) setup []
  else useSetups table (← names setup)
  awaitCheckout
  return (job, log ++ edits)

theorem addJob_eq (table job : Value) : addJob table job = (do
    let source := Value.given? (← liftM (job.field? "steps"))
    let (plains, log) ← match source with
      | some v => addSteps table 0 (← liftM v.members) []
      | none => pure ([], [])
    enterJob table job source plains log) := rfl

end Graph

end StepLoom
