import StepLoom.Proofs.Compile.Steady
import StepLoom.Proofs.Sharing

/-!
# Documents that make no use of the tool

A plain document has no `setup`, neither at its top nor in a job, and its steps carry none of the
keys that concern the tool. Jobs, steps, and everything in them may be shared.

**Theorem (`plain_untouched`).** A plain document in which each job has steps compiles to itself. In
general, a job without steps gets an empty list of steps, and nothing else changes.

A job that calls a reusable workflow has no steps, so it does not stay as it is (`plain_call`).
-/

namespace StepLoom

open Value

variable {own : Edit → Prop} {table doc job v w : Value} {fields js : Fields} {mark : Option Nat}
  {log : List Edit} {r : Registry}

/-! ## Steady jobs -/

namespace Workflow

/-- The jobs, with an empty list of steps in each job that has none. -/
def jobsWithSteps (js : Fields) : Fields := js.map fun f => (f.1, Job.withSteps f.2)

theorem exec_compileJobs_steady (table : Value) (r : Registry)
    (h : ∀ f ∈ js, Job.Steady own f.2) (hlog : ∀ e ∈ log, own e) :
    ∃ edits, (∀ e ∈ edits, own e) ∧
      exec (compileJobs table js log) r = (.ok (jobsWithSteps js, edits), r) := by
  induction js generalizing log with
  | nil => exact ⟨[], by simp, rfl⟩
  | cons f rest ih =>
    obtain ⟨id, job⟩ := f
    obtain ⟨hjob, hrest⟩ := List.forall_mem_cons.mp h
    obtain ⟨-, -, -, -, hstays, -⟩ := hjob.withFields
    obtain ⟨edits, hedits, hcompile⟩ := Job.exec_compile_steady (table.applyAll log) r hjob
    obtain ⟨more, hmore, hjobs⟩ := ih hrest (List.forall_mem_append.mpr ⟨hlog, hedits⟩)
    refine ⟨edits ++ more, List.forall_mem_append.mpr ⟨hedits, hmore⟩, ?_⟩
    rw [compileJobs, hjob.stays.applyAll hlog, exec_bind_ok hcompile]
    dsimp only
    rw [exec_bind_ok hjobs, exec_pure, hstays.applyAll hmore]
    rfl

theorem jobsWithSteps_eq (h : ∀ f ∈ js, f.2.part "steps" ≠ none) : jobsWithSteps js = js := by
  refine Eq.trans (List.map_congr_left fun f hf => ?_) (List.map_id _)
  refine Prod.ext rfl ?_
  change Job.withSteps f.2 = f.2
  rw [Job.withSteps]
  cases hsteps : f.2.part "steps" with
  | none => exact absurd hsteps (h f hf)
  | some v => rfl

theorem take_setup (hsetup : Fields.get? "setup" fields = none) :
    (Value.record fields).take "setup" = .ok (none, fields) := by
  have hopens : Opens (fun _ => False) (.record fields) fields := opens_record (by simp [Stays])
  exact hopens.take hsetup

/-- A document without jobs stays as it is. -/
theorem compile_without_jobs (hsetup : Fields.get? "setup" fields = none)
    (hjobs : given? (Fields.get? "jobs" fields) = none) :
    compile (.record fields) = .ok (.record fields) := by
  have hrun : exec (compileIn (.record fields)) {} = (.ok (.record fields), {}) := by
    rw [compileIn, take_setup hsetup, exec_bind_ok (exec_liftM_ok _)]
    dsimp only
    rw [hjobs]
    rfl
  exact congrArg Prod.fst hrun

/-- **A document of steady jobs**, in which writing mappings back changes nothing. -/
theorem compile_steady (own : Edit → Prop) (hsetup : Fields.get? "setup" fields = none)
    (hjobs : Fields.get? "jobs" fields = some (.map mark js))
    (hreads : (Value.map mark js).fields? = some js) (h : ∀ f ∈ js, Job.Steady own f.2)
    (hstays : ∀ f ∈ fields, f.2.Stays own) :
    compile (.record fields) =
      .ok (.record (Fields.put "jobs" (.map mark (jobsWithSteps js)) fields)) := by
  cases hgiven : given? (Fields.get? "jobs" fields) with
  | none =>
    have hnil : js = [] := by simpa [hjobs, given?, isBlank] using hgiven
    subst hnil
    rw [compile_without_jobs hsetup hgiven, jobsWithSteps, List.map_nil, Fields.put_of_get? hjobs]
  | some jobs =>
    obtain rfl : jobs = .map mark js :=
      Option.some.inj ((Option.eq_some_of_filter_eq_some hgiven).symm.trans hjobs)
    obtain ⟨edits, hedits, hcompiled⟩ :=
      exec_compileJobs_steady (Workflow.table none) {} h (List.forall_mem_nil own)
    have happly : Fields.applyAll edits fields = fields := by
      refine Eq.trans (List.map_congr_left fun f hf => ?_) (List.map_id _)
      exact Prod.ext rfl ((hstays f hf).applyAll hedits)
    have hread : (Value.map mark js).fieldsOf = .ok js := by rw [fieldsOf, hreads]
    have hrun : exec (compileIn (.record fields)) {} =
        (.ok (.record (Fields.put "jobs" (.map mark (jobsWithSteps js)) fields)), {}) := by
      rw [compileIn, take_setup hsetup, exec_bind_ok (exec_liftM_ok _)]
      dsimp only
      rw [hgiven]
      dsimp only
      rw [hread, exec_bind_ok (exec_liftM_ok _), exec_bind_ok hcompiled]
      dsimp only
      rw [happly]
      rfl
    exact congrArg Prod.fst hrun

end Workflow

/-! ## Plain documents -/

/-- The step is a mapping without keys that concern the tool. -/
def Step.IsPlain (step : Value) : Prop :=
  ∃ fields, step.IsOuter fields ∧ Fields.get? "bail_if" fields = none ∧
    ∀ key ∈ Graph.extensionKeys, Fields.get? key fields = none

/-- The job is a mapping without `setup`. It has a list of plain steps, or it has no steps and
stands at one place only. -/
def Job.IsPlain (job : Value) : Prop :=
  ∃ fields, job.IsOuter fields ∧ Fields.get? "setup" fields = none ∧
    (Fields.get? "steps" fields = none ∧ job.StandsAlone ∨
      ∃ vs, Fields.get? "steps" fields = some (.list vs) ∧ ∀ v ∈ vs, Step.IsPlain v)

/-- The document has no `setup`, and a mapping of plain jobs. -/
structure Workflow.IsPlain (doc : Value) : Prop where
  coherent : doc.Coherent
  fields : ∃ fields mark js, doc = .record fields ∧ Fields.get? "setup" fields = none ∧
    Fields.get? "jobs" fields = some (.map mark js) ∧ (Value.map mark js).IsOuter js ∧
    ∀ f ∈ js, Job.IsPlain f.2

/-- The document with an empty list of steps in each job that has none. -/
def Workflow.withSteps (doc : Value) : Value :=
  match doc.part "jobs" with
  | some (.map mark js) =>
    .record (Fields.put "jobs" (.map mark (jobsWithSteps js)) (doc.fields?.getD []))
  | _ => doc

theorem Step.IsPlain.steady (h : Step.IsPlain v) (hw : w.Coherent) (hsub : v.places ⊆ w.places) :
    Step.Steady (· ∈ w.places) v := by
  obtain ⟨fields, houter, hkeys⟩ := h
  exact ⟨fields, opens_of_mem hw hsub houter, hkeys⟩

theorem Job.IsPlain.steady (h : Job.IsPlain job) (hw : w.Coherent)
    (hsub : job.places ⊆ w.places) : Job.Steady (· ∈ w.places) job := by
  obtain ⟨fields, houter, hsetup, hsteps⟩ := h
  refine ⟨fields, opens_of_mem hw hsub houter, hsetup, ?_⟩
  obtain ⟨mark, rfl, -⟩ := houter
  rcases hsteps with ⟨hnone, halone⟩ | ⟨vs, hlist, hvs⟩
  · refine Or.inl ⟨hnone, ?_⟩
    cases mark with
    | none => rfl
    | some m => exact absurd rfl (halone m fields)
  · refine Or.inr ⟨vs, hlist, fun v hv => (hvs v hv).steady hw ?_⟩
    exact fun p hp => hsub (places_sub_of_get? hlist (places_sub_of_mem_list hv hp))

theorem Workflow.IsPlain.compile (h : Workflow.IsPlain doc) :
    Workflow.compile doc = .ok (Workflow.withSteps doc) := by
  obtain ⟨hcoherent, fields, mark, js, rfl, hsetup, hjobs, houter, hplain⟩ := h
  have hsub : (Value.map mark js).places ⊆ (Value.record fields).places :=
    places_sub_of_get? hjobs
  have hopens := opens_of_mem hcoherent hsub houter
  have hwith : Workflow.withSteps (.record fields) =
      .record (Fields.put "jobs" (.map mark (jobsWithSteps js)) fields) := by
    have hpart : (Value.record fields).part "jobs" = some (.map mark js) := hjobs
    rw [Workflow.withSteps, hpart]
    rfl
  rw [hwith]
  refine compile_steady (· ∈ (Value.record fields).places) hsetup hjobs hopens.reads ?_ ?_
  · exact fun f hf => (hplain f hf).steady hcoherent fun p hp =>
      hsub (places_sub_of_mem_map hf hp)
  · exact fun f hf e he => assign_of_places _ fun p hp hmark =>
      hcoherent p (places_sub_of_mem_map hf hp) e he hmark

/-- Nothing is put into a document in which each job has steps. -/
theorem Workflow.IsPlain.withSteps_eq (h : Workflow.IsPlain doc)
    (hsteps : ∀ f ∈ Workflow.jobs doc, f.2.part "steps" ≠ none) : Workflow.withSteps doc = doc := by
  obtain ⟨hcoherent, fields, mark, js, rfl, -, hjobs, houter, -⟩ := h
  have hpart : (Value.record fields).part "jobs" = some (.map mark js) := hjobs
  have hreads := (opens_of_mem hcoherent (places_sub_of_get? hjobs) houter).reads
  have hsame : jobsWithSteps js = js := by
    refine jobsWithSteps_eq fun f hf => hsteps f ?_
    cases js with
    | nil => cases hf
    | cons g rest =>
      rw [Workflow.jobs, hpart]
      change f ∈ (Value.map mark (g :: rest)).fields?.getD []
      rwa [hreads]
  rw [Workflow.withSteps, hpart]
  dsimp only
  rw [hsame]
  exact congrArg Value.record (Fields.put_of_get? hjobs)

/-- **A plain document** in which each job has steps stays as it is. A job without steps gets an
empty list of them. -/
theorem plain_untouched (h : Workflow.IsPlain doc) :
    Workflow.compile doc = .ok (Workflow.withSteps doc) ∧
    ((∀ f ∈ Workflow.jobs doc, f.2.part "steps" ≠ none) → Workflow.compile doc = .ok doc) :=
  ⟨h.compile, fun hsteps => h.compile.trans (congrArg Except.ok (h.withSteps_eq hsteps))⟩

/-! ## Samples

In the first document two jobs share a step. The second one calls a reusable workflow. -/

namespace Workflow

def buildStep : Value := .map (some 0) [("name", .str "Build"), ("run", .str "make")]

def plainJob (rest : List Value) : Value :=
  .record [("runs-on", .str "ubuntu-latest"), ("steps", .list (buildStep :: rest))]

def plainDoc : Value :=
  .record [("on", .str "push"), ("jobs", .record [("check", plainJob []),
    ("test", plainJob [.record [("run", .str "make test")]])])]

def callDoc : Value :=
  .record [("jobs", .record [("call",
    .record [("uses", .str "org/repo/.github/workflows/x.yml@main")])])]

theorem isOuter_record (fields : Fields) : (Value.record fields).IsOuter fields :=
  ⟨none, rfl, by simp⟩

theorem plainJob_isPlain {rest : List Value} (h : ∀ v ∈ rest, Step.IsPlain v) :
    Job.IsPlain (plainJob rest) := by
  have hbuild : Step.IsPlain buildStep :=
    ⟨_, ⟨some 0, rfl, fun m _ => by simp [marksOfFields, marks]⟩, rfl, by decide⟩
  exact ⟨_, isOuter_record _, rfl, Or.inr ⟨_, rfl, List.forall_mem_cons.mpr ⟨hbuild, h⟩⟩⟩

theorem plainDoc_isPlain : IsPlain plainDoc where
  coherent p hp q hq _ := by
    have hplaces : plainDoc.places = [⟨0, [("name", .str "Build"), ("run", .str "make")]⟩,
      ⟨0, [("name", .str "Build"), ("run", .str "make")]⟩] := rfl
    simp only [hplaces, List.mem_cons, List.not_mem_nil, or_false, or_self] at hp hq
    rw [hp, hq]
  fields := by
    refine ⟨_, none, _, rfl, rfl, rfl, isOuter_record _, ?_⟩
    refine List.forall_mem_cons.mpr ⟨plainJob_isPlain (by simp), List.forall_mem_singleton.mpr ?_⟩
    exact plainJob_isPlain (List.forall_mem_singleton.mpr ⟨_, isOuter_record _, rfl, by decide⟩)

theorem callDoc_isPlain : IsPlain callDoc where
  coherent p hp := by cases hp
  fields := ⟨_, none, _, rfl, rfl, rfl, isOuter_record _, List.forall_mem_singleton.mpr
    ⟨_, isOuter_record _, rfl, Or.inl ⟨rfl, standsAlone_record _⟩⟩⟩

end Workflow

theorem plain_untouched_sample : Workflow.IsPlain Workflow.plainDoc ∧
    Workflow.plainDoc.marks = [0, 0] ∧
    Workflow.compile Workflow.plainDoc = .ok Workflow.plainDoc := by
  refine ⟨Workflow.plainDoc_isPlain, rfl, (plain_untouched Workflow.plainDoc_isPlain).2 ?_⟩
  have hjobs : ∀ f ∈ Workflow.jobs Workflow.plainDoc, (f.2.part "steps").isSome := by decide
  exact fun f hf => Option.isSome_iff_ne_none.mp (hjobs f hf)

/-- **A call of a reusable workflow** gets an empty list of steps. -/
theorem plain_call : Workflow.IsPlain Workflow.callDoc ∧
    Workflow.compile Workflow.callDoc = .ok (.record [("jobs", .record [("call", .record
      [("uses", .str "org/repo/.github/workflows/x.yml@main"), ("steps", .list [])])])]) ∧
    Workflow.compile Workflow.callDoc ≠ .ok Workflow.callDoc := by
  have hcompile := Workflow.callDoc_isPlain.compile
  refine ⟨Workflow.callDoc_isPlain, hcompile, fun h => ?_⟩
  have hsame : Workflow.withSteps Workflow.callDoc = Workflow.callDoc :=
    Except.ok.inj (hcompile.symm.trans h)
  have hlisted := congrArg
    (fun doc => (Workflow.jobs doc).map fun f => (f.2.part "steps").isSome) hsame
  exact absurd hlisted (by decide)

end StepLoom
