import StepLoom.Compile.Job

/-!
# Compiling a workflow

All jobs of a document share its table of setups and one registry of step ids. The compiled document
has no table of setups, and is otherwise the same with each job compiled.
-/

namespace StepLoom

/-- The fields after edits of mappings that stand in them. -/
def Fields.applyAll (edits : List Edit) (fields : Fields) : Fields :=
  fields.map fun (k, v) => (k, v.applyAll edits)

namespace Workflow

open Registry (Claiming)

/-- Compiles jobs one after another. `log` holds the edits made by the jobs before; they have not
yet reached the table and the jobs. -/
def compileJobs (table : Value) : Fields → (log : List Edit) → Claiming (Fields × List Edit)
  | [], _ => return ([], [])
  | (id, job) :: rest, log => do
    let (job, edits) ← Job.compile (table.applyAll log) (job.applyAll log)
    let (rest, more) ← compileJobs table rest (log ++ edits)
    return ((id, job.applyAll more) :: rest, edits ++ more)

/-- The table of setups in a document, empty if the document has none. -/
def table (setup : Option Value) : Value := (Value.given? setup).getD (.record [])

/-- The compiled document. -/
def compileIn (doc : Value) : Claiming Value := do
  let (setup, fields) ← liftM (doc.take "setup")
  match Value.given? (Fields.get? "jobs" fields) with
  | none => return .record fields
  | some jobs => do
    let (compiled, edits) ← compileJobs (table setup) (← liftM jobs.fieldsOf) []
    let jobs := Value.map (match jobs with | .map mark _ => mark | _ => none) compiled
    return .record (Fields.put "jobs" jobs (Fields.applyAll edits fields))

/-- The compiled document, with step ids of its own. -/
def compile (doc : Value) : Except Fault Value := ((compileIn doc).run.run {}).1

end Workflow

end StepLoom
