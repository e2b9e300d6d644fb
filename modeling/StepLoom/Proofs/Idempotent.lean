import StepLoom.Proofs.Keys
import StepLoom.Proofs.Plain
import StepLoom.Proofs.Sharing.Unmarked

/-!
# Compiling twice

A compiled document makes no use of the tool: it has no table of setups, its jobs have no `setup`,
and the keys that only concern the tool are consumed. So it is plain, and compiling it again changes
nothing. The extension keys of a setup's own steps are the exception. They are copied, and a second
time they would be read.

**Theorem (`compile_idempotent`).** A document without shared mappings, whose setups' steps carry no
extension keys, compiles to a document that compiles to itself.
-/

namespace StepLoom

open Value

variable {doc out table job job' v : Value} {fields js : Fields}

/-! ## Compiled documents are plain -/

/-- The steps of the setups in a table carry none of the extension keys. -/
def Setup.StepsPlain (table : Value) : Prop :=
  ∀ name definition items, Setup.find? table name = .ok (some definition) →
    Setup.steps definition = .ok items →
    ∀ item ∈ items, ∀ key ∈ Graph.extensionKeys, item.entry key = none

/-- A bare job is steady if no extension key is copied. -/
theorem Job.Bare.steady (h : Job.Bare table job job') (hplain : Setup.StepsPlain table) :
    Job.Steady (fun _ => False) job' ∧ job'.part "steps" ≠ none := by
  have hopens : ∀ fields, Opens (fun _ => False) (.record fields) fields :=
    fun fields => opens_record (by simp [Stays])
  obtain ⟨fields, vs, rfl, hsetup, hsteps, hvs⟩ := h
  refine ⟨⟨fields, hopens fields, hsetup, Or.inr ⟨vs, hsteps, fun v hv => ?_⟩⟩, ?_⟩
  · obtain ⟨⟨fs, rfl⟩, hbail, hconsumed⟩ := hvs v hv
    refine ⟨fs, hopens fs, hbail, fun key hkey => ?_⟩
    by_contra hpart
    have htext : ∃ a, key = .str a := by
      simp only [Graph.extensionKeys, List.mem_cons, List.not_mem_nil, or_false] at hkey
      rcases hkey with rfl | rfl | rfl | rfl | rfl <;> exact ⟨_, rfl⟩
    obtain ⟨a, rfl⟩ := htext
    obtain ⟨step, ⟨name, definition, items, -, hfound, hitems, hmem⟩, hentry⟩ :=
      hconsumed a hkey hpart
    exact hentry (hplain name definition items hfound hitems step hmem _ hkey)
  · exact fun hnone => by cases hsteps.symm.trans hnone

namespace Workflow

/-- What a compiled document looks like: its jobs are a mapping, or there are none. -/
theorem shape_of_compile (h : compile doc = .ok out) : ∃ fields, out = .record fields ∧
    (given? (Fields.get? "jobs" fields) = none ∨
      ∃ mark js, Fields.get? "jobs" fields = some (.map mark js) ∧
        (doc.Unmarked → mark = none)) := by
  have hleads : Leads (fun _ => True) (fun out _ => ∃ fields, out = .record fields ∧
      (given? (Fields.get? "jobs" fields) = none ∨
        ∃ mark js, Fields.get? "jobs" fields = some (.map mark js) ∧
          (doc.Unmarked → mark = none))) (compileIn doc) := by
    refine leads_liftM.bind fun (setup, fields) => .assuming fun htake => ?_
    have hpart : doc.part "jobs" = Fields.get? "jobs" fields := part_of_take_ne htake (by decide)
    dsimp only
    cases hsource : given? (Fields.get? "jobs" fields) with
    | none => exact leads_pure fun _ _ => ⟨fields, rfl, Or.inl hsource⟩
    | some source =>
      refine leads_liftM.bind fun js => .assuming fun hjs => ?_
      have htrue : Leads (fun _ => True) (fun _ _ => True) (compileJobs (table setup) js []) :=
        fun r _ => by
          unfold Ensures
          rcases exec (compileJobs (table setup) js []) r with ⟨_ | _, _⟩ <;> trivial
      refine htrue.bind fun (compiled, edits) => leads_pure fun _ _ => ?_
      refine ⟨_, rfl, Or.inr ⟨_, _, Fields.get?_put_self, fun hun => ?_⟩⟩
      have hmark : source.Unmarked :=
        unmarked_iff.mpr ((unmarked_iff.mp hun).part
          (hpart.trans (Option.eq_some_of_filter_eq_some hsource)))
      rw [hmark.eq_record (fields?_of_fieldsOf hjs)]
  exact (hleads {} trivial).of_ok (Prod.ext h rfl)

end Workflow

/-- **Compiling is idempotent.** -/
theorem compile_idempotent (hun : doc.Unmarked) (honce : Workflow.KeysOnce doc)
    (hplain : Setup.StepsPlain (Workflow.setups doc)) (h : Workflow.compile doc = .ok out) :
    Workflow.compile out = .ok out := by
  have hbare : Workflow.Bare doc out :=
    (Workflow.leads_compileIn_bare (Workflow.standAlone_of_unmarked hun) honce {} trivial).of_ok
      (Prod.ext h rfl)
  obtain ⟨hsetup, hjobs⟩ := hbare
  obtain ⟨fields, rfl, hnone | ⟨mark, js, hmap, hmark⟩⟩ := Workflow.shape_of_compile h
  · exact Workflow.compile_without_jobs hsetup hnone
  obtain rfl := hmark hun
  have hjs : Workflow.jobs (.record fields) = js := by
    rw [Workflow.jobs, show (Value.record fields).part "jobs" = _ from hmap]
    cases js <;> rfl
  rw [hjs] at hjobs
  have hsteady : ∀ f ∈ js, Job.Steady (fun _ => False) f.2 ∧ f.2.part "steps" ≠ none := by
    intro f hf
    obtain ⟨g, -, -, hbare⟩ := forall₂_exists_left hjobs hf
    exact hbare.steady hplain
  rw [Workflow.compile_steady (fun _ => False) hsetup hmap rfl (fun f hf => (hsteady f hf).1)
    (by simp [Stays])]
  rw [Workflow.jobsWithSteps_eq fun f hf => (hsteady f hf).2, Fields.put_of_get? hmap]

/-! ## A sample

A step under paths needs two setups, of which one bails. -/

namespace Workflow

def wovenSetups : Fields := [("checkout", .list [.record [("uses", .str "actions/checkout@v4")]]),
  ("tools", .list [.record [("run", .str "make tools"), ("bail_if", .str "outputs.done")]])]

def wovenSteps : List Value := [
  .record [("run", .str "build"), ("paths", .str "src/*"),
    ("setup", .list [.str "checkout", .str "tools"]), ("local", .bool true)],
  .record [("run", .str "test")]]

def wovenJob : Value := .record [("steps", .list wovenSteps)]

def wovenDoc : Value :=
  .record [("setup", .record wovenSetups), ("jobs", .record [("code", wovenJob)])]

/-- What holds of the steps in the table holds of the steps of any setup that is found in it. -/
theorem forall_wovenSetups {P : Value → Prop}
    (h : ∀ f ∈ wovenSetups, ∀ items, Setup.steps f.2 = .ok items → ∀ item ∈ items, P item)
    {name definition : Value} {items : List Value}
    (hfound : Setup.find? (.record wovenSetups) name = .ok (some definition))
    (hitems : Setup.steps definition = .ok items) : ∀ item ∈ items, P item := by
  obtain ⟨k, hk⟩ := Job.mem_of_find? hfound
  exact h (k, definition) hk items hitems

theorem wovenDoc_keysOnce : KeysOnce wovenDoc := by
  refine ⟨holdsOnce_record.mpr (by decide), fun f hf => ?_⟩
  obtain rfl : f = (.str "code", wovenJob) := List.mem_singleton.mp hf
  refine ⟨holdsOnce_record.mpr (by decide), ?_, ?_⟩
  · change ∀ step ∈ wovenSteps, step.HoldsOnce
    exact List.forall_mem_cons.mpr ⟨holdsOnce_record.mpr (by decide),
      List.forall_mem_singleton.mpr (holdsOnce_record.mpr (by decide))⟩
  · rintro step ⟨name, definition, items, -, hfound, hitems, hmem⟩
    refine forall_wovenSetups (List.forall_mem_cons.mpr
      ⟨?_, List.forall_mem_singleton.mpr ?_⟩) hfound hitems step hmem
    all_goals
      intro items hitems
      obtain rfl := Except.ok.inj hitems
      exact List.forall_mem_singleton.mpr (holdsOnce_record.mpr (by decide))

theorem wovenDoc_stepsPlain : Setup.StepsPlain (setups wovenDoc) := by
  intro name definition items hfound hitems
  refine forall_wovenSetups (List.forall_mem_cons.mpr
    ⟨?_, List.forall_mem_singleton.mpr ?_⟩) hfound hitems
  all_goals
    intro items hitems
    obtain rfl := Except.ok.inj hitems
    exact List.forall_mem_singleton.mpr (by decide)

end Workflow

/-- Compiled once, the job has a step for the paths and one for each setup, and all later steps are
gated. Compiled again, it stays as it is. -/
theorem compile_idempotent_sample : Workflow.wovenDoc.Unmarked ∧
    Workflow.KeysOnce Workflow.wovenDoc ∧ Setup.StepsPlain (Workflow.setups Workflow.wovenDoc) ∧
    ∃ out, Workflow.compile Workflow.wovenDoc = .ok out ∧
      Workflow.having "if" out = [[false, false, true, true, true]] ∧
      Workflow.compile out = .ok out := by
  have hrun : (Workflow.compile Workflow.wovenDoc).toOption.map (Workflow.having "if") =
      some [[false, false, true, true, true]] := by decide
  cases hok : Workflow.compile Workflow.wovenDoc with
  | error e =>
    rw [hok] at hrun
    cases hrun
  | ok out =>
    rw [hok] at hrun
    have hunmarked : Workflow.wovenDoc.Unmarked := rfl
    exact ⟨hunmarked, Workflow.wovenDoc_keysOnce, Workflow.wovenDoc_stepsPlain, out, rfl,
      Option.some.inj hrun, compile_idempotent hunmarked Workflow.wovenDoc_keysOnce
        Workflow.wovenDoc_stepsPlain hok⟩

end StepLoom
