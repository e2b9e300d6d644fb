import StepLoom.Proofs.DeepCopy
import StepLoom.Proofs.Sharing
import StepLoom.Template.Compile

/-!
# What validation leaves to the compiler

A template that loads is *formed*: it is a mapping with a mapping of jobs, its jobs and their steps
are mappings, and so is its table of setups (`formed_of_load`). No more is validated. The steps of a
setup, and what the fields of steps, jobs and definitions hold, are left to the compiler, which ends
in an internal fault for a setup with a step that is a number (`loaded_noMember`).

**Theorem (`loaded_compiles`).** A template that loads, in which no mapping stands twice and whose
fields are ready, compiles, or the fault says what is wrong with it.
-/

namespace StepLoom

open Value

namespace Workflow

variable {doc source : Value} {r : Registry}

/-- A mapping with a mapping of jobs, which are mappings of lists of mappings, and with a mapping of
setups. -/
structure Formed (doc : Value) : Prop where
  fields : ∃ fields, doc.fields? = some fields
  source : ∀ v, given? (doc.part "jobs") = some v → ∃ js, v.fields? = some js
  jobs : ∀ f ∈ Workflow.jobs doc, Job.Formed f.2
  table : ∃ fields, (setups doc).fields? = some fields

/-- The compiler can read what the jobs and the setups of a document say. -/
def Ready (doc : Value) : Prop :=
  (∀ f ∈ jobs doc, Job.Ready f.2) ∧ Setup.TableReady (setups doc)

instance : Decidable (Ready doc) := inferInstanceAs (Decidable (_ ∧ _))

/-! ## Copies -/

theorem mem_jobs_iff {f : Scalar × Value} : f ∈ jobs doc ↔ ∃ v js,
    given? (doc.part "jobs") = some v ∧ v.fields? = some js ∧ f ∈ js := by
  rw [jobs]
  cases given? (doc.part "jobs") with
  | none => simp
  | some v => cases hjs : v.fields? <;> simp [hjs]

theorem mem_jobs_copy (hun : doc.Unmarked) {f : Scalar × Value} (hf : f ∈ jobs doc.copy) :
    ∃ u ∈ jobs doc, f = (u.1, u.2.copy) := by
  obtain ⟨w, js, hw, hjs, hmem⟩ := mem_jobs_iff.mp hf
  rw [part_copy hun] at hw
  obtain ⟨v, hv, rfl⟩ := given?_copy hw
  rw [fields?_copy (hun.part (Option.filter_eq_some_iff.mp hv).1)] at hjs
  obtain ⟨fields, hfields, rfl⟩ := Option.map_eq_some_iff.mp hjs
  rw [copyFields_eq] at hmem
  obtain ⟨u, hu, rfl⟩ := List.mem_map.mp hmem
  exact ⟨u, mem_jobs_iff.mpr ⟨v, fields, hv, hfields, hu⟩, rfl⟩

theorem setups_copy (hun : doc.Unmarked) : setups doc.copy = (setups doc).copy ∨
    setups doc.copy = .record [] := by
  unfold setups table
  rw [part_copy hun]
  cases hg : given? ((doc.part "setup").map copy) with
  | none => exact Or.inr rfl
  | some w =>
    obtain ⟨v, hv, rfl⟩ := given?_copy hg
    rw [hv]
    exact Or.inl rfl

theorem Formed.copy (h : Formed doc) (hun : doc.Unmarked) : Formed doc.copy where
  fields := by
    obtain ⟨fields, hfields⟩ := h.fields
    exact ⟨copyFields fields, by rw [fields?_copy hun, hfields]; rfl⟩
  source w hw := by
    rw [part_copy hun] at hw
    obtain ⟨v, hv, rfl⟩ := given?_copy hw
    obtain ⟨js, hjs⟩ := h.source v hv
    refine ⟨copyFields js, ?_⟩
    rw [fields?_copy (hun.part (Option.filter_eq_some_iff.mp hv).1), hjs]
    rfl
  jobs f hf := by
    obtain ⟨u, hu, rfl⟩ := mem_jobs_copy hun hf
    exact (h.jobs u hu).copy (hun.jobs u hu)
  table := by
    rcases setups_copy hun with hs | hs
    · obtain ⟨fields, hfields⟩ := h.table
      rw [hs, fields?_copy (hun.setups), hfields]
      exact ⟨_, rfl⟩
    · rw [hs]
      exact ⟨[], rfl⟩

theorem Ready.copy (h : Ready doc) (hf : Formed doc) (hun : doc.Unmarked) : Ready doc.copy := by
  refine ⟨fun f hmem => ?_, fun f hmem => ?_⟩
  · obtain ⟨u, hu, rfl⟩ := mem_jobs_copy hun hmem
    exact (h.1 u hu).copy (hf.jobs u hu) (hun.jobs u hu)
  · rcases setups_copy hun with hs | hs
    · obtain ⟨fields, hfields⟩ := hf.table
      rw [hs, fields?_copy hun.setups, hfields] at hmem
      change f ∈ copyFields fields at hmem
      rw [copyFields_eq] at hmem
      obtain ⟨u, hu, rfl⟩ := List.mem_map.mp hmem
      have hu' : u ∈ (setups doc).fields?.getD [] := by rwa [hfields]
      exact (h.2 u hu').copy (unmarked_iff.mpr ((unmarked_iff.mp hun.setups).fields? hfields u hu))
    · rw [hs] at hmem
      cases hmem

/-! ## Compiling -/

/-- **Ready jobs compile one after another**, or a fault says what is wrong with the template. -/
theorem compileJobs_ready {table : Value} {js : Fields}
    (hjobs : ∀ f ∈ js, Job.Formed f.2 ∧ f.2.Unmarked ∧ Job.Ready f.2)
    (ht : Setup.TableReady table) (hfind : ∀ name, ∃ d, Setup.find? table (.str name) = .ok d) :
    Ensures (compileJobs table js []) r (fun _ _ => True) Fault.OfTemplate := by
  induction js generalizing r with
  | nil => exact ensures_pure trivial
  | cons f rest ih =>
    obtain ⟨id, job⟩ := f
    obtain ⟨⟨hf, hun, hj⟩, hrest⟩ := List.forall_mem_cons.mp hjobs
    rw [compileJobs]
    refine (Job.compile_ready hf hun hj ht hfind).bind fun (job', edits) r' hedits => ?_
    obtain rfl : edits = [] := hedits
    exact (ih hrest).bind fun _ _ _ => ensures_pure trivial

/-- **A formed and ready document compiles**, or a fault says what is wrong with it. -/
theorem compileIn_ready (hf : Formed doc) (hun : doc.Unmarked) (h : Ready doc) :
    Ensures (compileIn doc) r (fun _ _ => True) Fault.OfTemplate := by
  obtain ⟨fields, hfields⟩ := hf.fields
  obtain rfl := hun.eq_record hfields
  have hpart : Fields.get? "jobs" (Fields.erase "setup" fields) =
      (Value.record fields).part "jobs" :=
    Fields.get?_erase_ne (by decide)
  have htake : (Value.record fields).take "setup" =
      .ok (Fields.get? "setup" fields, Fields.erase "setup" fields) := rfl
  rw [compileIn, htake]
  refine ensures_bind_exec (exec_liftM_ok _) ?_
  dsimp only
  rw [hpart]
  cases hg : given? ((Value.record fields).part "jobs") with
  | none => exact ensures_pure trivial
  | some source =>
    obtain ⟨js, hjs⟩ := hf.source source hg
    have hjobs : jobs (.record fields) = js := by
      rw [jobs, hg]
      dsimp only
      rw [hjs]
      rfl
    have hof : source.fieldsOf = .ok js := by rw [fieldsOf, hjs]
    obtain ⟨entries, htable⟩ := hf.table
    have hfind : ∀ name, ∃ d, Setup.find? (setups (.record fields)) (.str name) = .ok d := by
      rw [(hun.setups).eq_record htable]
      exact fun name => ⟨_, Setup.find?_of_map rfl name⟩
    dsimp only
    rw [hof]
    refine ensures_bind_exec (exec_liftM_ok _) ?_
    have hready : ∀ f ∈ js, Job.Formed f.2 ∧ f.2.Unmarked ∧ Job.Ready f.2 := by
      intro f hmem
      rw [← hjobs] at hmem
      exact ⟨hf.jobs f hmem, hun.jobs f hmem, h.1 f hmem⟩
    exact (compileJobs_ready hready h.2 hfind).bind fun _ _ _ => ensures_pure trivial

theorem compile_ready (hf : Formed doc) (hun : doc.Unmarked) (h : Ready doc) :
    (∃ compiled, compile doc = .ok compiled) ∨ ∃ e, compile doc = .error e ∧ e.OfTemplate := by
  have hensures := compileIn_ready (r := {}) hf hun h
  rw [Ensures] at hensures
  rw [compile, show (compileIn doc).run.run {} = exec (compileIn doc) {} from rfl]
  rcases hex : exec (compileIn doc) {} with ⟨e | compiled, r'⟩
  · rw [hex] at hensures
    exact Or.inr ⟨e, rfl, hensures⟩
  · exact Or.inl ⟨compiled, rfl⟩

end Workflow

namespace Template

variable {file : String} {doc : Value}

/-! ## What is validated -/

theorem mapping_of_checkSteps {job : Scalar} {steps : List Value} {index : Nat}
    (h : checkSteps file job index steps = .ok ()) :
    ∀ step ∈ steps, ∃ fields, step.fields? = some fields := by
  induction steps generalizing index with
  | nil => simp
  | cons step rest ih =>
    rw [checkSteps] at h
    cases hstep : step.fields? with
    | none =>
      rw [hstep] at h
      obtain ⟨text, -, h⟩ := bind_eq_ok.mp h
      cases h
    | some fields =>
      rw [hstep] at h
      dsimp only at h
      split_ifs at h
      · obtain ⟨text, -, h⟩ := bind_eq_ok.mp h
        cases h
      · exact List.forall_mem_cons.mpr ⟨⟨fields, hstep⟩, ih h⟩

theorem formed_of_checkJobs {js : Fields} (h : checkJobs file js = .ok ()) :
    ∀ f ∈ js, Job.Formed f.2 := by
  induction js with
  | nil => simp
  | cons f rest ih =>
    obtain ⟨id, job⟩ := f
    rw [checkJobs] at h
    cases hjob : job.fields? with
    | none =>
      rw [hjob] at h
      obtain ⟨text, -, h⟩ := bind_eq_ok.mp h
      cases h
    | some fields =>
      rw [hjob] at h
      obtain ⟨steps, hsteps, h⟩ := bind_eq_ok.mp h
      obtain ⟨⟨⟩, hcheck, hrest⟩ := bind_eq_ok.mp h
      have hpart : job.part "steps" = Fields.get? "steps" fields := by
        rw [part, hjob]
        rfl
      rw [← hpart] at hsteps
      refine List.forall_mem_cons.mpr ⟨⟨⟨fields, hjob⟩, ⟨steps, hsteps⟩, ?_⟩, ih hrest⟩
      rw [Job.steps_eq hsteps]
      exact mapping_of_checkSteps hcheck

/-- What passes the check is formed. -/
theorem formed_of_check (h : check file doc = .ok ()) : Workflow.Formed doc := by
  unfold check at h
  cases hdoc : doc.fields? with
  | none =>
    rw [hdoc] at h
    cases h
  | some fields =>
    rw [hdoc] at h
    dsimp only at h
    have hpart : ∀ key, doc.part key = Fields.get? key fields := by
      intro key
      rw [part, hdoc]
      rfl
    cases hjobs : Fields.get? "jobs" fields with
    | none =>
      rw [hjobs] at h
      cases h
    | some source =>
      rw [hjobs] at h
      dsimp only at h
      cases hjs : source.fields? with
      | none =>
        rw [hjs] at h
        cases h
      | some js =>
        rw [hjs] at h
        obtain ⟨⟨⟩, hcheck, h⟩ := bind_eq_ok.mp h
        obtain ⟨entries, hentries, -⟩ := bind_eq_ok.mp h
        have hsource : ∀ v, given? (doc.part "jobs") = some v → v = source := by
          intro v hv
          have hsome := (Option.filter_eq_some_iff.mp hv).1
          rw [hpart, hjobs] at hsome
          exact (Option.some.inj hsome).symm
        refine ⟨⟨fields, hdoc⟩, fun v hv => ⟨js, by rw [hsource v hv, hjs]⟩, fun f hf => ?_, ?_⟩
        · obtain ⟨v, js', hv, hjs', hmem⟩ := Workflow.mem_jobs_iff.mp hf
          rw [hsource v hv, hjs] at hjs'
          obtain rfl := Option.some.inj hjs'
          exact formed_of_checkJobs hcheck f hmem
        · rw [Workflow.setups, Workflow.table, hpart]
          rw [fieldsOrNone] at hentries
          cases hg : given? (Fields.get? "setup" fields) with
          | none => exact ⟨[], rfl⟩
          | some v =>
            rw [hg] at hentries
            exact ⟨entries, fields?_of_fieldsOf hentries⟩

/-- What loads has passed the check. -/
theorem check_of_load {path : Path} {w w' : Workspace}
    (h : exec (load path) w = (.ok doc, w')) : check path.text doc = .ok () := by
  have hcheck : ∀ (x : Act Value) w, Ensures (x >>= fun doc =>
      (liftM (check path.text doc) : Act Unit) >>= fun _ => pure doc) w
      (fun doc _ => check path.text doc = .ok ()) fun _ => True := by
    intro x w
    refine (ensures_true x w).bind fun doc w _ => ?_
    refine (ensures_liftM (Q := fun _ _ => check path.text doc = .ok ()) ?_ ?_).bind
      fun _ _ hdoc => ensures_pure hdoc
    · exact fun _ ha => ha
    · exact fun _ _ => trivial
  have hread : ∀ w, Ensures (readYaml 0 path >>= fun x =>
      if x.1.isMap then resolveIncludes path x.2 x.1 >>= fun doc =>
        (liftM (check path.text doc) : Act Unit) >>= fun _ => pure doc
      else pure x.1 >>= fun doc => (liftM (check path.text doc) : Act Unit) >>= fun _ => pure doc) w
      (fun doc _ => check path.text doc = .ok ()) fun _ => True := by
    intro w
    refine (ensures_true _ w).bind fun x w _ => ?_
    split
    · exact hcheck _ w
    · exact hcheck _ w
  have hload : Ensures (load path) w (fun doc _ => check path.text doc = .ok ()) fun _ => True := by
    refine (ensures_true _ w).bind fun found w _ => ?_
    cases found with
    | true => exact hread w
    | false => exact (ensures_true _ w).bind fun _ w _ => hread w
  exact hload.of_ok h

/-- **What loads is formed.** -/
theorem formed_of_load {path : Path} {w w' : Workspace}
    (h : exec (load path) w = (.ok doc, w')) : Workflow.Formed doc :=
  formed_of_check (check_of_load h)

/-- **A template that loads compiles** if its fields are ready, or the fault says what is wrong with
the template. What is compiled is a copy. -/
theorem loaded_compiles {path : Path} {w w' : Workspace}
    (hload : exec (load path) w = (.ok doc, w')) (hun : doc.Unmarked)
    (hready : Workflow.Ready doc) :
    (∃ compiled, Workflow.compile doc.copy = .ok compiled) ∨
      ∃ e, Workflow.compile doc.copy = .error e ∧ e.OfTemplate :=
  have hform := formed_of_load hload
  Workflow.compile_ready (hform.copy hun) hun.copy (hready.copy hform hun)

/-- A template whose second step has a number for its gate. -/
def readyTemplate : Workspace where
  tree := Tree.putFiles {} [("ci.yml", String.join ["setup: {checkout: [{uses: checkout}]}\n",
    "jobs: {a: {setup: checkout, steps: [{run: x, bail_if: outputs.y}, {run: z, if: 1}]}}\n"])]

/-- Whether a template loads, and its fields are ready. -/
def loadsReady (path : Path) (w : Workspace) : Bool :=
  match (exec (load path) w).1 with
  | .ok doc => decide (doc.marks = [] ∧ Workflow.Ready doc)
  | .error _ => false

theorem loaded_compiles_sample : ∃ doc w',
    exec (load (Path.ofText "ci.yml")) readyTemplate = (.ok doc, w') ∧ doc.Unmarked ∧
    Workflow.Ready doc ∧ ((∃ compiled, Workflow.compile doc.copy = .ok compiled) ∨
      ∃ e, Workflow.compile doc.copy = .error e ∧ e.OfTemplate) := by
  have hready : loadsReady (Path.ofText "ci.yml") readyTemplate = true := by decide +kernel
  rw [loadsReady] at hready
  rcases hload : exec (load (Path.ofText "ci.yml")) readyTemplate with ⟨e | doc, w'⟩
  · rw [hload] at hready
    cases hready
  · rw [hload] at hready
    obtain ⟨hun, hready⟩ := of_decide_eq_true hready
    exact ⟨doc, w', rfl, hun, hready, loaded_compiles hload hun hready⟩

/-- A template with a setup whose only step is a number. -/
def numberStep : Workspace where
  tree := Tree.putFiles {} [("ci.yml", "setup: {tools: [5]}\njobs: {a: {setup: tools}}\n")]

/-- The fault of a template that loads and does not compile. -/
def faultOf (path : Path) (w : Workspace) : Option Fault :=
  match (exec (load path) w).1 with
  | .ok doc =>
    match Workflow.compile doc.copy with
    | .ok _ => none
    | .error e => some e
  | .error _ => none

/-- A template that loads, and whose compile asks a number for its name: the fault says nothing
about the template. -/
theorem loaded_noMember : ∃ doc w',
    exec (load (Path.ofText "ci.yml")) numberStep = (.ok doc, w') ∧
    Workflow.compile doc.copy = .error .noMember ∧ ¬ Fault.noMember.OfTemplate := by
  have hfault : faultOf (Path.ofText "ci.yml") numberStep = some .noMember := by decide +kernel
  rw [faultOf] at hfault
  rcases hload : exec (load (Path.ofText "ci.yml")) numberStep with ⟨e | doc, w'⟩
  · rw [hload] at hfault
    cases hfault
  · rw [hload] at hfault
    refine ⟨doc, w', rfl, ?_, by simp [Fault.OfTemplate]⟩
    dsimp only at hfault
    cases hcompile : Workflow.compile doc.copy with
    | ok compiled =>
      rw [hcompile] at hfault
      cases hfault
    | error e =>
      rw [hcompile] at hfault
      exact congrArg Except.error (Option.some.inj hfault)

end Template

end StepLoom
