import StepLoom.Compile.Workflow
import StepLoom.Proofs.Compile.Woven
import StepLoom.Proofs.Sharing.Block

/-!
# Documents with shared mappings

A document may use one mapping at several places. Compiling edits the mappings of jobs and of their
steps, and so their other places as well.

**Theorem (`compile_unshare`).** If no job and no step of a job stands at a second place, sharing
does not change the result: the compiled document has the same data, or the fault is the same.

Without this condition it may. A step that two jobs share loses its paths in the first of them.
-/

namespace StepLoom

open Value StepLoom.Graph

/-! ## Jobs -/

namespace Job

variable {table table' v w : Value}

theorem finish_alike {gated gated' : List Value} (h : LoneCopies v w)
    (hsteps : List.Forall₂ LoneCopies gated gated') :
    Alike (Unedited LoneCopies) (finish v [] gated) (finish w [] gated') := by
  refine (Bail.resolveAll_alike hsteps).bind fun _ _ ⟨hresolved⟩ => ?_
  refine h.copies.fieldsOf.bind fun fs gs hfs => ?_
  rw [h.alone.withFields, h.copies.standsAlone.withFields]
  refine .ok (.intro (loneCopies_record (hfs.put (copies_list ?_))))
  exact hresolved.imp fun _ _ h => h.copies

/-- **A job whose steps stand alone** and its copy compile alike. -/
theorem compile_abreast (ht : Value.Copies table table') (h : JobCopies v w) :
    Abreast Eq (Unedited LoneCopies) (compile table v) (compile table' w) := by
  rintro r _ rfl
  have hof := ofJob_alike ht h
  rw [exec_compile, exec_compile]
  generalize ofJob table v = x, ofJob table' w = y at hof ⊢
  cases hof with
  | error e => exact ⟨.error e, rfl⟩
  | @ok made made' hmade =>
    obtain ⟨g, left⟩ := made
    obtain ⟨g', left'⟩ := made'
    obtain ⟨hg, ⟨hjob⟩⟩ := hmade
    dsimp only at hg ⊢
    rw [hg.order]
    cases g'.order with
    | error e => exact ⟨.error e, rfl⟩
    | ok ids =>
      obtain ⟨halike, hr⟩ := Block.joinFrom_abreast hg ids [] r r rfl
      dsimp only
      change Alike _ (exec (Block.join g ids) r).1 (exec (Block.join g' ids) r).1 at halike
      change (exec (Block.join g ids) r).2 = (exec (Block.join g' ids) r).2 at hr
      generalize exec (Block.join g ids) r = p, exec (Block.join g' ids) r = q at halike hr ⊢
      obtain ⟨gated, r₁⟩ := p
      obtain ⟨gated', r₂⟩ := q
      cases halike with
      | error e => exact ⟨.error e, hr⟩
      | ok hsteps => exact ⟨finish_alike hjob hsteps, hr⟩

end Job

/-! ## Documents -/

namespace Workflow

/-- The jobs of a document. -/
def jobs (doc : Value) : Fields :=
  match given? (doc.part "jobs") with
  | some v => v.fields?.getD []
  | none => []

/-- The table of setups of a document. -/
def setups (doc : Value) : Value := table (doc.part "setup")

/-- No job, and no step of a job, stands at a second place. -/
structure StandAlone (doc : Value) : Prop where
  jobs : ∀ id job, (id, job) ∈ jobs doc → job.StandsAlone
  steps : ∀ id job, (id, job) ∈ Workflow.jobs doc → ∀ step ∈ Job.steps job, step.StandsAlone

theorem compileJobs_abreast {table table' : Value} (ht : Value.Copies table table')
    {js js' : Fields} (h : List.Forall₂ (fun f g => f.1 = g.1 ∧ JobCopies f.2 g.2) js js') :
    Abreast Eq (Unedited FieldsCopies)
      (compileJobs table js []) (compileJobs table' js' []) := by
  induction h with
  | nil => exact abreast_pure (.intro .nil)
  | @cons f g _ _ hfg _ ih =>
    obtain ⟨id, job⟩ := f
    obtain ⟨id', job'⟩ := g
    obtain ⟨rfl, hjob⟩ := hfg
    refine (Job.compile_abreast ht hjob).bind fun _ _ ⟨hcompiled⟩ => ?_
    refine ih.bind fun _ _ ⟨hrest⟩ => ?_
    exact abreast_pure (.intro (.cons ⟨rfl, hcompiled.copies⟩ hrest))

variable {doc doc' : Value}

theorem jobs_eq {setup : Option Value} {fields js : Fields} {source : Value}
    (htake : doc.take "setup" = .ok (setup, fields))
    (hsource : given? (Fields.get? "jobs" fields) = some source)
    (hjs : source.fieldsOf = .ok js) : jobs doc = js := by
  rw [jobs, part_of_take_ne htake (by decide), hsource]
  dsimp only
  rw [fields?_of_fieldsOf hjs]
  rfl

theorem table_copies {a b : Option Value} (h : Option.Rel Value.Copies a b) :
    Value.Copies (table a) (table b) := by
  have hgiven := Copies.given? h
  unfold table
  generalize given? a = x, given? b = y at hgiven ⊢
  cases hgiven with
  | none => exact copies_record .nil
  | some h => exact h

theorem jobCopies_of_standAlone (h : StandAlone doc) {js js' : Fields} (hjs : jobs doc = js)
    (hcopies : FieldsCopies js js') :
    List.Forall₂ (fun f g => f.1 = g.1 ∧ JobCopies f.2 g.2) js js' := by
  have hall : ∀ f ∈ js, f.2.StandsAlone ∧ ∀ step ∈ Job.steps f.2, step.StandsAlone := fun f hf =>
    have hmem : (f.1, f.2) ∈ jobs doc := hjs ▸ hf
    ⟨h.jobs _ _ hmem, h.steps _ _ hmem⟩
  refine ((List.forall₂_and_left _ _).mpr ⟨hall, hcopies⟩).imp ?_
  exact fun f g ⟨⟨hjob, hsteps⟩, hkey, hfg⟩ => ⟨hkey, ⟨hfg, hjob⟩, hsteps⟩

/-- Compiled jobs take the place of the jobs in both documents. -/
theorem unshare_compiled {m : Option Nat} {fs gs js js' : Fields} (h : FieldsCopies fs gs)
    (hjs : FieldsCopies js js') :
    (Value.record (Fields.put "jobs" (.map m js) fs)).unshare =
      .record (Fields.put "jobs" (.map none js') gs) := by
  obtain ⟨-, rfl⟩ := fieldsCopies_iff.mp h
  obtain ⟨-, rfl⟩ := fieldsCopies_iff.mp hjs
  rw [Value.unshare, Value.remark, remarkFields_put, Value.remark]
  cases m <;> rfl

theorem compileIn_abreast (hdoc : Value.Copies doc doc') (h : StandAlone doc) :
    Abreast Eq (fun v w => v.unshare = w) (compileIn doc) (compileIn doc') := by
  unfold compileIn
  refine (abreast_liftM hdoc.take.with_ok).bind fun p q ⟨htake, hsetup, hfs⟩ => ?_
  obtain ⟨setup, fs⟩ := p
  obtain ⟨setup', gs⟩ := q
  have hgiven := Copies.given? (hfs.get? "jobs")
  dsimp only
  generalize hs : given? (Fields.get? "jobs" fs) = s, given? (Fields.get? "jobs" gs) = s'
    at hgiven ⊢
  cases hgiven with
  | none => exact abreast_pure (copies_record hfs).eq
  | some hjobs =>
    refine (abreast_liftM hjobs.fieldsOf.with_ok).bind fun js js' ⟨hjs, hcopies⟩ => ?_
    have hall := jobCopies_of_standAlone h (jobs_eq htake hs hjs) hcopies
    refine (compileJobs_abreast (table_copies hsetup) hall).bind fun _ _ ⟨hcompiled⟩ => ?_
    have happly : ∀ fields, Fields.applyAll [] fields = fields := List.map_id
    rw [happly, happly]
    refine abreast_pure ?_
    -- A copy has no mark to hand on.
    cases hjobs.shape <;> exact unshare_compiled hfs hcompiled

end Workflow

/-- **Sharing does not change the result** while jobs and their steps stand alone. -/
theorem compile_unshare {doc : Value} (hacyclic : doc.isAcyclic) (h : Workflow.StandAlone doc) :
    (Workflow.compile doc).map Value.unshare = Workflow.compile doc.unshare := by
  obtain ⟨halike, -⟩ := Workflow.compileIn_abreast ⟨hacyclic, rfl⟩ h {} {} rfl
  change Alike _ (Workflow.compile doc) (Workflow.compile doc.unshare) at halike
  generalize Workflow.compile doc = x, Workflow.compile doc.unshare = y at halike ⊢
  cases halike with
  | ok h => exact congrArg Except.ok h
  | error e => rfl

/-! ## Samples

In the first document two steps share their environment. In the second one two jobs share their
step. -/

namespace Workflow

/-- A document with the sample table and some jobs. -/
def sampleDoc (jobs : Fields) : Value :=
  .record [("setup", Job.sampleTable), ("jobs", .record jobs)]

/-- A step under paths that needs a setup, with some environment. -/
def sampleStep (mark : Option Nat) (env : Fields) : Value :=
  .map mark [("run", .str "build"), ("paths", .str "src/*"), ("setup", .str "tools"),
    ("env", .map (some 1) env)]

def sharedEnvJob : Value :=
  let step := sampleStep none [("CI", .str "true")]
  .record [("steps", .list [step, step])]

def sharedEnvDoc : Value := sampleDoc [("build", sharedEnvJob)]

def sharedStepDoc : Value :=
  let job := .record [("steps", .list [sampleStep (some 0) []])]
  sampleDoc [("linux", job), ("windows", job)]

/-- The gates in a job with the step: on the checkout, the path check, the setup and the step. -/
def stepGates : Option (List (Option String)) :=
  let changed := some (Gate.changed "paths_src_")
  some [none, none, changed, changed]

/-- The texts under a key in the steps of all jobs. -/
def texts (key : String) (doc : Value) : List (Option (List (Option String))) :=
  (jobs doc).map fun job => Job.texts key job.2

end Workflow

/-- The steps of the first document stand alone, and what they share is shared still. -/
theorem compile_unshare_sample : Workflow.sharedEnvDoc.marks = [1, 1] ∧
    Workflow.sharedEnvDoc.isAcyclic ∧ Workflow.StandAlone Workflow.sharedEnvDoc ∧
    (Workflow.compile Workflow.sharedEnvDoc).toOption.map Value.marks = some [1, 1] ∧
    (Workflow.compile Workflow.sharedEnvDoc).map Value.unshare =
      Workflow.compile Workflow.sharedEnvDoc.unshare := by
  have hacyclic : Workflow.sharedEnvDoc.isAcyclic := by decide
  have hjobs : Workflow.jobs Workflow.sharedEnvDoc = [(.str "build", Workflow.sharedEnvJob)] := rfl
  have halone : Workflow.StandAlone Workflow.sharedEnvDoc := by
    constructor
    · intro id job hmem
      rw [hjobs, List.mem_singleton] at hmem
      obtain ⟨-, rfl⟩ := Prod.mk.inj hmem
      exact Value.standsAlone_record _
    · intro id job hmem step hstep
      rw [hjobs, List.mem_singleton] at hmem
      obtain ⟨-, rfl⟩ := Prod.mk.inj hmem
      have hsteps : step ∈ [_, _] := hstep
      simp only [List.mem_cons, List.not_mem_nil, or_false, or_self] at hsteps
      rw [hsteps]
      exact Value.standsAlone_record _
  exact ⟨by decide, hacyclic, halone, by decide, compile_unshare hacyclic halone⟩

/-- **A shared step** has a gate in the first job only; copies of it have one in both. -/
theorem compile_shared_step : Workflow.sharedStepDoc.isAcyclic ∧
    ((Workflow.compile Workflow.sharedStepDoc).map Value.unshare).toOption.map
      (Workflow.texts "if") = some [Workflow.stepGates, some [none]] ∧
    (Workflow.compile Workflow.sharedStepDoc.unshare).toOption.map (Workflow.texts "if") =
      some [Workflow.stepGates, Workflow.stepGates] ∧
    (Workflow.compile Workflow.sharedStepDoc).map Value.unshare ≠
      Workflow.compile Workflow.sharedStepDoc.unshare := by
  have hshared : ((Workflow.compile Workflow.sharedStepDoc).map Value.unshare).toOption.map
      (Workflow.texts "if") = some [Workflow.stepGates, some [none]] := by decide
  have hcopies : (Workflow.compile Workflow.sharedStepDoc.unshare).toOption.map
      (Workflow.texts "if") = some [Workflow.stepGates, Workflow.stepGates] := by decide
  refine ⟨by decide, hshared, hcopies, fun h => ?_⟩
  rw [h, hcopies] at hshared
  exact absurd hshared (by decide)

end StepLoom
