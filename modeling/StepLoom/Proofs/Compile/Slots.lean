import StepLoom.Proofs.Compile.Phases
import StepLoom.Proofs.Compile.Stacked
import StepLoom.Proofs.Condition.Gates

/-!
# Where compiled steps come from

Each step of a compiled job comes from a step of the job, from the definition of a setup, or from a
path check. A `Slot` holds a step as it was written and as it was compiled, with the path checks
that its node is conditioned on.

**Theorem (`BlockOf.writes`).** The block of a node holds the steps that the node stands for, under
the condition on its path checks.
-/

namespace StepLoom

open Value Setup Condition
open StepLoom.Graph (IsCheck stepId setupId)

/-- The `if` and the `bail_if` of a step are texts. -/
structure Step.Texts (step : Value) : Prop where
  gate : TextOrAbsent (step.part "if")
  bail : TextOrAbsent (step.part "bail_if")

/-- The steps of a job, and those that the setups it reaches contribute, have texts as
conditions. -/
structure Job.Texts (table job : Value) : Prop where
  steps : ∀ step ∈ Job.steps job, Step.Texts step
  setups : ∀ s, Job.Reached table job s → ∀ d, definition? table s = some d →
    ∀ vs, Block.copies s d = .ok vs → ∀ v ∈ vs, Step.Texts v

/-- The steps that a node of a job's graph stands for. -/
inductive Job.Writes (table job : Value) (checkId : String → String) : String → List Value → Prop
  | step {i : Nat} {step : Value} (hi : (Job.steps job)[i]? = some step) :
      Writes table job checkId (stepId i) [Step.plain step]
  | setup {s : String} {d : Value} {vs : List Value} (hs : Job.Reached table job s)
      (hd : definition? table s = some d) (hv : Block.copies s d = .ok vs) :
      Writes table job checkId (setupId s) vs
  | check {x : String} {check : Fields} (hx : IsCheck x)
      (hs : Check.step (checkId x) (Job.checkPatterns job x) = .ok check) :
      Writes table job checkId x [.record check]

namespace Job

variable {table job step v : Value} {checkId : String → String} {x : String} {vs : List Value}
  {i : Nat}

/-- A step of the job stands for itself. -/
theorem Writes.of_step (h : Writes table job checkId (stepId i) vs)
    (hi : (steps job)[i]? = some step) : vs = [Step.plain step] := by
  generalize hx : stepId i = x at h
  cases h with
  | step hj =>
    obtain rfl := Graph.stepId_inj.mp hx
    rw [Option.some.inj (hi.symm.trans hj)]
  | setup => exact absurd hx.symm Graph.setupId_ne_stepId
  | check hc => exact absurd (hx ▸ hc) Graph.not_isCheck_stepId

/-- A setup stands for the steps of its definition. -/
theorem Writes.of_setup {s : String} (h : Writes table job checkId (setupId s) vs) :
    ∃ d, definition? table s = some d ∧ Block.copies s d = .ok vs := by
  generalize hx : setupId s = x at h
  cases h with
  | step => exact absurd hx Graph.setupId_ne_stepId
  | setup hs hd hv =>
    obtain rfl := Graph.setupId_inj.mp hx
    exact ⟨_, hd, hv⟩
  | check hc => exact absurd (hx ▸ hc) Graph.not_isCheck_setupId

/-- A path check stands for the step with its patterns. -/
theorem Writes.of_check (h : Writes table job checkId x vs) (hx : IsCheck x) :
    ∃ check, Check.step (checkId x) (checkPatterns job x) = .ok check ∧ vs = [.record check] := by
  cases h with
  | step => exact absurd hx Graph.not_isCheck_stepId
  | setup => exact absurd hx Graph.not_isCheck_setupId
  | check _ hs => exact ⟨_, hs, rfl⟩

theorem sampleJob_texts : Texts sampleTable sampleJob where
  steps := by
    intro step hstep
    rw [show steps sampleJob = sampleSteps from rfl] at hstep
    simp only [sampleSteps, List.mem_cons, List.not_mem_nil, or_false] at hstep
    rcases hstep with rfl | rfl <;> exact ⟨textOrAbsent_none, textOrAbsent_none⟩
  setups := by
    intro s _ d hd vs hvs v hv
    rw [definition?_sampleTable] at hd
    split_ifs at hd
    all_goals
      obtain rfl := Option.some.inj hd
      obtain rfl := Except.ok.inj hvs
      obtain rfl := List.mem_singleton.mp hv
      exact ⟨textOrAbsent_none, textOrAbsent_none⟩

end Job

/-- A step as it was written, the path checks that its node is conditioned on, and what it was
compiled to. -/
structure Slot where
  written : Value
  checks : Option (List String)
  compiled : Value

namespace Slot

/-- The bail condition, qualified with the id of the compiled step. -/
def bail? (s : Slot) : Option String := Bail.rewritten s.written s.compiled

end Slot

variable {table job job' : Value} {g : Graph} {r r' : Registry} {ids : List String}
  {edits : List Edit} {b vs : List Value} {outs : List (String × String)} {x : String}

/-! ## Step ids of path checks -/

/-- The step id of a path check. -/
def Block.checkId (outs : List (String × String)) (x : String) : String :=
  ((outs.find? fun (k, _) => k == x).map Prod.snd).getD ""

namespace Block

theorem checkId_of_mem {outId : String} (hnd : (outs.map Prod.fst).Nodup) (h : (x, outId) ∈ outs) :
    checkId outs x = outId := by
  unfold checkId
  cases hf : outs.find? fun (k, _) => k == x with
  | none =>
    have := List.find?_eq_none.mp hf _ h
    simp at this
  | some pair =>
    have hkey : pair.1 = x := by simpa using List.find?_some hf
    have hpair : pair = (x, outId) :=
      List.inj_on_of_nodup_map hnd (List.mem_of_find?_eq_some hf) h hkey
    rw [hpair]
    rfl

theorem lookUpAll_eq {l found : List String} (h : Gate.lookUpAll outs l = .ok found)
    (hids : StepIds outs ids) : found = l.map (checkId outs) ∧
      ∀ id ∈ found, Registry.IsCandidate id := by
  induction l generalizing found with
  | nil =>
    obtain rfl := Except.ok.inj h
    simp
  | cons x rest ih =>
    obtain ⟨pair, more, hf, hrest, rfl⟩ := lookUpAll_cons_ok h
    obtain ⟨rfl, hnames⟩ := ih hrest
    refine ⟨by rw [List.map_cons, checkId, hf]; rfl, List.forall_mem_cons.mpr ⟨?_, hnames⟩⟩
    exact hids.names pair (List.mem_of_find?_eq_some hf)

/-- The condition on the path checks of a node. -/
theorem anyChanged_eq {deps : Option (List String)} {c : Option String}
    (h : Gate.anyChanged deps outs = .ok c) (hids : StepIds outs ids) :
    c = checked (deps.map (List.map (checkId outs))) ∧
      ∀ l, deps = some l → ∀ x ∈ l, isName (checkId outs x).toList := by
  cases deps with
  | none =>
    obtain rfl := Except.ok.inj h
    exact ⟨rfl, by simp⟩
  | some l =>
    rw [Gate.anyChanged] at h
    cases hl : Gate.lookUpAll outs l with
    | error e => simp [hl, bind, Except.bind] at h
    | ok found =>
      rw [hl] at h
      obtain rfl := Except.ok.inj h
      obtain ⟨rfl, hnames⟩ := lookUpAll_eq hl hids
      refine ⟨rfl, fun l' hl' x hx => ?_⟩
      obtain rfl := Option.some.inj hl'
      obtain ⟨ps, n, hid⟩ := hnames _ (List.mem_map_of_mem hx)
      rw [hid]
      exact isName_candidate ps n

variable {n : Node}

/-- A step under the condition on the path checks of its node. -/
structure Guarded (checkId : String → String) (checks : Option (List String)) (v u : Value) :
    Prop where
  typed : Step.Typed u
  same : Same ["if"] v u
  gate : Step.gate? u = Gate.guarded (checked (checks.map (List.map checkId))) (Step.gate? v)
  checks : ∀ l, checks = some l → l ≠ [] ∧ ∀ x ∈ l, isName (checkId x).toList

/-- A path check has no conditions. -/
theorem texts_of_check {outId : String} {ps : List String} {check : Fields}
    (h : Check.step outId ps = .ok check) : (Value.record check).part "if" = none ∧
      (Value.record check).part "bail_if" = none := by
  obtain ⟨found, -, rfl⟩ := Check.step_ok h
  exact ⟨rfl, rfl⟩

/-- **The block of a node, before bail conditions are resolved.** -/
theorem BlockOf.writes (h : BlockOf g outs x b) (hb : Graph.Built table job g) (hx : g.has x)
    (hw : Job.Texts table job) (hs : ∀ step ∈ Job.steps job, step.IsRecord)
    (hids : StepIds outs ids) (hnd : ids.Nodup) : ∃ n vs, g.look x = some n ∧
      Job.Writes table job (checkId outs) x vs ∧
      List.Forall₂ (Guarded (checkId outs) n.pathDeps) vs b := by
  obtain ⟨n, hn⟩ := Graph.has_iff_look.mp hx
  have hchecks : ∀ c, Gate.anyChanged n.pathDeps outs = .ok c →
      c = checked (n.pathDeps.map (List.map (checkId outs))) ∧
      ∀ l, n.pathDeps = some l → l ≠ [] ∧ ∀ x ∈ l, isName (checkId outs x).toList := by
    intro c hc
    obtain ⟨heq, hnames⟩ := anyChanged_eq hc hids
    exact ⟨heq, fun l hl => ⟨(hb.deps hn hl).1, hnames l hl⟩⟩
  rcases hb.cases hn with ⟨i, step, hi, rfl, -⟩ | ⟨hcheck, -⟩ | ⟨s, hreach, rfl, -⟩
  · obtain ⟨c, u, rfl, hc, hu⟩ := h.of_step hb hi
    obtain ⟨m, hm, -, -, hdeps, -⟩ := hb.step hi
    obtain rfl := Option.some.inj (hm.symm.trans hn)
    obtain ⟨rfl, hnames⟩ := hchecks c (by rw [show m.pathDeps = _ from hdeps]; exact hc)
    have hmem := List.mem_of_getElem? hi
    have htexts := hw.steps step hmem
    have hplain := Step.plain_same (hs step hmem)
    have htyped : Step.Typed (Step.plain step) := by
      refine ⟨hplain.isRecord, ?_, ?_⟩
      · rw [hplain.part (by decide)]
        exact htexts.gate
      · rw [hplain.part (by decide)]
        exact htexts.bail
    obtain ⟨w, hguard, hguarded, hsame, hgate⟩ := htyped.guardWith _
    obtain rfl := Except.ok.inj (hu.symm.trans hguard)
    exact ⟨m, _, hn, .step hi, .cons ⟨hguarded, hsame, hgate, hnames⟩ .nil⟩
  · obtain ⟨outId, check, hmem, hstep, rfl⟩ := h.of_check hcheck hb
    obtain ⟨-, hdeps, -, -⟩ := hb.check hcheck hn
    have hid : checkId outs x = outId := checkId_of_mem (hids.keys.nodup hnd) hmem
    obtain ⟨hif, hbail⟩ := texts_of_check hstep
    have htyped : Step.Typed (.record check) :=
      ⟨⟨check, rfl⟩, hif ▸ textOrAbsent_none, hbail ▸ textOrAbsent_none⟩
    refine ⟨n, _, hn, .check hcheck (hid ▸ hstep), .cons ⟨htyped, Same.refl ⟨check, rfl⟩, ?_, ?_⟩
      .nil⟩
    · rw [show n.pathDeps = none from hdeps]
      rfl
    · rw [show n.pathDeps = none from hdeps]
      simp
  · obtain ⟨m, c, hm, hd, hc, hof⟩ := h.of_setup hb
    obtain rfl := Option.some.inj (hm.symm.trans hn)
    obtain ⟨rfl, hnames⟩ := hchecks c hc
    rw [ofSetup_eq] at hof
    cases hcopies : copies s m.content with
    | error e => rw [hcopies] at hof; cases hof
    | ok vs =>
      rw [hcopies] at hof
      obtain ⟨items, -, hsetup⟩ := copies_ok hcopies
      have htyped : ∀ v ∈ vs, Step.Typed v := fun v hv =>
        have htexts := hw.setups s hreach _ hd vs hcopies v hv
        ⟨hsetup.isRecord v hv, htexts.gate, htexts.bail⟩
      obtain ⟨out, hout, hall⟩ := Step.mapM_guardWith htyped _
      obtain rfl := Except.ok.inj (hof.symm.trans hout)
      exact ⟨m, vs, hn, .setup hreach hd hcopies,
        hall.imp fun v u hvu => ⟨hvu.1, hvu.2.1, hvu.2.2, hnames⟩⟩

end Block

end StepLoom
