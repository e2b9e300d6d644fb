import StepLoom.Compile.Bail
import StepLoom.Compile.Block
import StepLoom.Graph.Order

/-!
# Compiling a job

A job's graph is built from its steps and its own `setup`, put in order, and the blocks of its nodes
are joined to the list of steps that the compiled job has. Jobs and steps that also stand elsewhere
in the document change at all their places, so each function also yields the edits that it made to
shared mappings.
-/

namespace StepLoom

namespace Graph

/-- Adds steps from the `index`-th on. `log` holds the edits made before; they have not yet reached
the table and the steps. -/
def addSteps (table : Value) : (index : Nat) → List Value → (log : List Edit) →
    Build (List Value × List Edit)
  | _, [], _ => return ([], [])
  | index, step :: rest, log => do
    let (step, edits) ← addStep (table.applyAll log) index (step.applyAll log)
    let (rest, more) ← addSteps table (index + 1) rest (log ++ edits)
    return (step.applyAll more :: rest, edits ++ more)

/-- Adds some setups that nothing waits for. -/
def useSetups (table : Value) : List Value → Build Unit
  | [] => return
  | name :: rest => do
    discard (useSetup table name [])
    useSetups table rest

/-- The steps, setups and path checks of a job. The first step waits for the job's own setups.
Yields the job without its extension keys. -/
def addJob (table job : Value) : Build (Value × List Edit) := do
  let source := Value.given? (← liftM (job.field? "steps"))
  let (steps, log) ← match source with
    | some v => addSteps table 0 (← liftM v.members) []
    | none => pure ([], [])
  let fields ← liftM (job.applyAll log).fieldsOf
  let setup := Fields.get? "setup" fields
  let fields := Fields.erase "setup" fields
  let (job, edits) := job.withFields
    (if source.isSome then Fields.put "steps" (.list steps) fields else fields)
  replay edits
  let table := table.applyAll (log ++ edits)
  if source.isSome then awaitSetups table (stepId 0) setup []
  else useSetups table (← names setup)
  awaitCheckout
  return (job, log ++ edits)

/-- The graph of a job, with the job and the edits that are left. -/
def ofJob (table job : Value) : Except Fault (Graph × Value × List Edit) :=
  match (addJob table job).run.run {} with
  | (.ok (job, edits), g) => .ok (g, job, edits)
  | (.error e, _) => .error e

end Graph

namespace Job

open Registry (Claiming)

/-- The job with compiled steps. -/
def compile (table job : Value) : Claiming (Value × List Edit) := do
  let (graph, job, log) ← liftM (Graph.ofJob table job)
  let order ← liftM graph.order
  let gated ← Block.join graph order
  let (steps, edits) ← liftM (Bail.resolveAll gated)
  let fields ← liftM (job.applyAll edits).fieldsOf
  let (job, last) := job.withFields (Fields.put "steps" (.list steps) fields)
  return (job, log ++ edits ++ last)

end Job

end StepLoom
