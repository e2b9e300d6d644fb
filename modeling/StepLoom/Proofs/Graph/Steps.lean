import StepLoom.Proofs.Check
import StepLoom.Proofs.Graph.Phases
import StepLoom.Proofs.Graph.Ties
import StepLoom.Proofs.Job

/-!
# Adding steps

A step becomes a node that waits for its path check, for the setups that it names, and for the step
before it. `StepAdded` says so in terms of a visit of the names, and `StepsAdded` says it for a list
of steps one after another.

**Theorem (`addStep_spec`, `addSteps_spec`).** Adding steps that stand at one place in the document
does this, or one of the names is to blame, or a step is not listed as it should be. It edits
nothing but the steps.
-/

namespace StepLoom

namespace Graph

open Setup Relation

variable {table step : Value} {g g' g₁ : Graph} {i : Nat} {ps : List String} {x y : String}

/-! ## Path checks -/

/-- The graph with the check for some patterns, unless there are none or it is there already. -/
def withCheck (ps : List String) (g : Graph) : Graph :=
  if ps = [] ∨ g.has (Check.nodeId ps) then g
  else g.addFresh (Check.nodeId ps) .paths (.list ((Check.sortTexts ps).map .str)) []

theorem exec_useCheck (h : ps ≠ []) :
    exec (useCheck ps) g = (.ok (Check.nodeId ps), g.withCheck ps) := by
  have hid : Check.nodeId (Check.sortTexts ps) = Check.nodeId ps := Check.nodeId_sortTexts ps
  rw [useCheck]
  simp only [hid]
  by_cases hg : g.has (Check.nodeId ps)
  · rw [exec_bind_ok (exec_addNode_old hg), withCheck, if_pos (Or.inr hg)]
    rfl
  · rw [exec_bind_ok (exec_addNode_new hg (by simp)), withCheck, if_neg (not_or.mpr ⟨h, hg⟩)]
    rfl

theorem has_withCheck : (g.withCheck ps).has x ↔ g.has x ∨ ps ≠ [] ∧ x = Check.nodeId ps := by
  unfold withCheck
  split_ifs with h
  · refine ⟨Or.inl, ?_⟩
    rintro (hx | ⟨hne, rfl⟩)
    · exact hx
    · exact h.resolve_left hne
  · rw [not_or] at h
    rw [has_addFresh h.2]
    simp [h.1]

/-- Adding a check leaves alone what is not that check. -/
theorem look_withCheck (hx : ¬ IsCheck x) : (g.withCheck ps).look x = g.look x := by
  unfold withCheck
  split_ifs with h
  · rfl
  · rw [look_addFresh (not_or.mp h).2, if_neg fun he => hx ⟨ps, he⟩]

theorem Sound.withCheck (hg : Sound table g) : Sound table (g.withCheck ps) := by
  unfold Graph.withCheck
  split_ifs with h
  · exact hg
  · refine hg.addFresh (not_or.mp h).2 (by simp) (by simp) (by simp) fun _ => ⟨rfl, ps, rfl, rfl⟩

theorem grows_withCheck : Grows g (g.withCheck ps) := by
  unfold withCheck
  split_ifs with h
  · exact Grows.refl g
  · exact grows_addFresh (not_or.mp h).2

/-! ## Contents of steps -/

/-- The graph with a new content in one node. -/
def setContent (x : String) (v : Value) (g : Graph) : Graph :=
  g.update x fun n => { n with content := v }

theorem look_setContent {v : Value} {z : String} : (g.setContent x v).look z =
    (g.look z).map fun n => if z = x then { n with content := v } else n :=
  look_update (by intro; rfl) (by intro; rfl)

@[simp] theorem has_setContent {v : Value} {z : String} : (g.setContent x v).has z = g.has z :=
  has_update (by intro; rfl)

theorem grows_setContent {v : Value} : Grows g (g.setContent x v) := by
  intro z n hn
  rw [look_setContent, hn]
  refine ⟨_, rfl, ?_⟩
  split_ifs
  · exact ⟨List.Subset.refl _, id⟩
  · exact ⟨List.Subset.refl _, id⟩

/-- The content of a step is free. -/
theorem Sound.setContent {v : Value} (hg : Sound table g) :
    Sound table (g.setContent (stepId i) v) where
  wf := hg.wf.update_inner ⟨by intro; rfl, by intro; rfl, by intro; rfl⟩
  setup {z n'} hn' hk := by
    rw [look_setContent, Option.map_eq_some_iff] at hn'
    obtain ⟨n, hn, rfl⟩ := hn'
    split_ifs at hk ⊢ with hz
    · subst hz
      exact absurd (hg.kind_step hn) (by simp [show n.kind = .setup from hk])
    · exact hg.setup hn hk
  step {z n'} hn' hk := by
    rw [look_setContent, Option.map_eq_some_iff] at hn'
    obtain ⟨n, hn, rfl⟩ := hn'
    have h := hg.step hn
    split_ifs at hk ⊢ <;> exact h hk
  check {z n'} hn' hk := by
    rw [look_setContent, Option.map_eq_some_iff] at hn'
    obtain ⟨n, hn, rfl⟩ := hn'
    split_ifs at hk ⊢ with hz
    · subst hz
      exact absurd (hg.kind_step hn) (by simp [show n.kind = .paths from hk])
    · exact hg.check hn hk
  deps {z n' l} hn' hl := by
    rw [look_setContent, Option.map_eq_some_iff] at hn'
    obtain ⟨n, hn, rfl⟩ := hn'
    have h : n.pathDeps = some l → _ := hg.deps hn
    split_ifs at hl ⊢ <;> exact h hl

/-! ## One step -/

/-- The step waits for the one before it. -/
def linkPrior (i : Nat) (g : Graph) : Graph :=
  if 0 < i then g.link (stepId i) (stepId (i - 1)) else g

/-- The graph with the node of a step and its path check, before its setups are followed. -/
def withStep (i : Nat) (step v w : Value) (g : Graph) : Graph :=
  ((g.withCheck (Step.patterns step)).addFresh (stepId i) .step v (Step.checks step)).setContent
    (stepId i) w

/-- What adding the `i`-th step makes of a graph. -/
def StepAdded (table : Value) (i : Nat) (step : Value) (g g' : Graph) : Prop :=
  ∃ v w g₁, Visits table (some (stepId i)) (Step.checks step) (Step.setups step)
      (g.withStep i step v w) g₁ ∧
    g' = (g₁.setContent (stepId i) (Step.plain step)).linkPrior i

theorem exec_replay_nil : exec (replay []) g = (.ok (), g) := by
  rw [replay, exec_modify]
  have h : g.applyAll [] = g := by
    rw [applyAll]
    congr 1
    exact List.map_id _
  rw [h]

theorem exec_refresh_new {v : Value} :
    exec (refresh true x v) g = (.ok (), g.setContent x v) := rfl

/-- A graph under construction that has the first `i` steps. -/
structure HasSteps (table : Value) (i : Nat) (g : Graph) : Prop where
  sound : Sound table g
  resolved : AllResolved table g
  steps : ∀ j, g.has (stepId j) ↔ j < i

theorem HasSteps.new (h : HasSteps table i g) : ¬ g.has (stepId i) := by
  rw [h.steps]
  exact Nat.lt_irrefl i

theorem HasSteps.prior (h : HasSteps table i g) (hi : 0 < i) : g.has (stepId (i - 1)) := by
  rw [h.steps]
  omega

theorem mem_checks_iff {p : String} : p ∈ Step.checks step ↔
    Step.patterns step ≠ [] ∧ p = Check.nodeId (Step.patterns step) := by
  unfold Step.checks
  split_ifs with h <;> simp [h]

theorem mem_checks {p : String} (h : p ∈ Step.checks step) :
    Step.patterns step ≠ [] ∧ p = Check.nodeId (Step.patterns step) := mem_checks_iff.mp h

theorem isCheck_of_mem_checks {p : String} (h : p ∈ Step.checks step) : IsCheck p :=
  ⟨_, (mem_checks h).2⟩

theorem not_has_step_withCheck (hnew : ¬ g.has (stepId i)) : ¬ (g.withCheck ps).has (stepId i) := by
  rw [has_withCheck]
  rintro (h | ⟨-, h⟩)
  · exact hnew h
  · exact stepId_ne_nodeId h

theorem has_withStep {v w : Value} (hnew : ¬ g.has (stepId i)) : (g.withStep i step v w).has x ↔
    g.has x ∨ x ∈ Step.checks step ∨ x = stepId i := by
  rw [withStep, has_setContent, has_addFresh (not_has_step_withCheck hnew), has_withCheck, or_assoc,
    Step.checks]
  split_ifs with h <;> simp [h]

/-- The names of a new step may be visited. -/
theorem ready_withStep {v w : Value} (hg : Sound table g) (hnew : ¬ g.has (stepId i)) :
    Ready table (some (stepId i)) (Step.checks step) (Step.setups step)
      (g.withStep i step v w) where
  sound := by
    refine Sound.setContent (hg.withCheck.addFresh (not_has_step_withCheck hnew)
      (fun p hp => ?_) (by simp) (fun _ => ⟨i, rfl⟩) (by simp))
    exact ⟨has_withCheck.mpr (Or.inr (mem_checks hp)), isCheck_of_mem_checks hp⟩
  checks p hp := ⟨(has_withStep hnew).mpr (Or.inr (Or.inl hp)), isCheck_of_mem_checks hp⟩
  owner x hx := by
    obtain rfl := Option.some.inj hx
    exact ⟨(has_withStep hnew).mpr (Or.inr (Or.inr rfl)), fun n _ => .setup i n⟩

theorem eq_map_of_strings {vs : List Value} {ss : List String} (h : Value.strings vs = .ok ss) :
    vs = ss.map .str := by
  induction vs generalizing ss with
  | nil =>
    obtain rfl := Except.ok.inj h
    rfl
  | cons v rest ih =>
    rw [Value.strings] at h
    cases hv : v.string with
    | error e => rw [hv] at h; cases h
    | ok s =>
      cases hr : Value.strings rest with
      | error e => rw [hv, hr] at h; cases h
      | ok more =>
        rw [hv, hr] at h
        obtain rfl := Except.ok.inj h
        rw [ih hr, List.map_cons]
        congr 1
        unfold Value.string at hv
        split at hv
        · rw [Except.ok.inj hv]
        · cases hv

theorem patterns_of_take {paths : Option Value} {fields : Fields} {vs : List Value}
    {texts : List String} (htake : step.take "paths" = .ok (paths, fields))
    (hvs : Value.oneOrMany paths = .ok vs) (htexts : Value.strings vs = .ok texts) :
    Step.patterns step = texts := by
  rw [Step.patterns, Value.part_of_take htake, Value.textsIn, hvs, eq_map_of_strings htexts]
  exact Value.filterMap_string?_map texts

theorem strings_map (ss : List String) : Value.strings (ss.map .str) = .ok ss := by
  induction ss with
  | nil => rfl
  | cons s rest ih =>
    rw [List.map_cons, Value.strings, ih]
    rfl

/-- What is left to do for a new step once its node is there: it waits for the setups that it names,
and for the step before it. -/
theorem finishStep_spec {v w : Value} (htext : TextNames table) (hg : HasSteps table i g)
    (hnames : Value.OnlyTexts (step.part "setup")) :
    Ensures (finishStep table i true (w, []) (Step.plain step, []) (step.part "setup")
        (Step.checks step))
      ((g.withCheck (Step.patterns step)).addFresh (stepId i) .step v (Step.checks step))
      (fun r g' => r = (Step.plain step, []) ∧ StepAdded table i step g g')
      (fun e => Blame table (Step.setups step) e ∨ ¬ Step.Listed step) := by
  have hready : Ready table _ _ _ (g.withStep i step v w) := ready_withStep hg.sound hg.new
  refine ensures_bind_exec exec_refresh_new (ensures_bind_exec exec_replay_nil ?_)
  refine ((awaitSetups_spec htext hnames hready).mono (fun _ _ h => h) fun e he => ?_).bind
    fun _ g₁ hv => ?_
  · refine he.imp_right fun hfail hl => ?_
    obtain ⟨vs, hvs⟩ := hl.setups
    rw [hvs] at hfail
    cases hfail
  · have hhas : ∀ {x}, (g.withStep i step v w).has x →
        (g₁.setContent (stepId i) (Step.plain step)).has x := fun h => by
      rw [has_setContent]
      exact (hv.sound hready).2.has h
    have hself := hhas ((has_withStep hg.new).mpr (Or.inr (Or.inr rfl)))
    refine ensures_bind_exec exec_refresh_new (ensures_bind_exec exec_replay_nil ?_)
    split_ifs with hi
    · have hprior := hhas ((has_withStep hg.new).mpr (Or.inl (hg.prior hi)))
      refine ensures_bind_exec (exec_addEdge hself hprior) (ensures_pure ⟨rfl, v, w, g₁, hv, ?_⟩)
      rw [linkPrior, if_pos hi]
    · refine ensures_pure ⟨rfl, v, w, g₁, hv, ?_⟩
      rw [linkPrior, if_neg hi]

/-- A step is entered, once its path check is there. -/
theorem enterStep_spec {v w : Value} (htext : TextNames table) (hg : HasSteps table i g)
    (hnames : Value.OnlyTexts (step.part "setup")) :
    Ensures
      (enterStep table i v (w, []) (Step.plain step, []) (step.part "setup") (Step.checks step))
      (g.withCheck (Step.patterns step))
      (fun r g' => r = (Step.plain step, []) ∧ StepAdded table i step g g')
      (fun e => Blame table (Step.setups step) e ∨ ¬ Step.Listed step) := by
  have hnew : ¬ (g.withCheck (Step.patterns step)).has (stepId i) := not_has_step_withCheck hg.new
  have hchecks : ∀ p ∈ Step.checks step, (g.withCheck (Step.patterns step)).has p := fun p hp =>
    has_withCheck.mpr (Or.inr (mem_checks hp))
  rw [enterStep_eq]
  refine ensures_bind_exec exec_get (ensures_bind_exec (exec_addNode_new hnew hchecks) ?_)
  rw [Bool.eq_false_of_not_eq_true hnew, Bool.not_false]
  exact finishStep_spec htext hg hnames

/-- The paths of a step that is listed are its patterns. -/
theorem oneOrMany_paths (h : Step.Listed step) :
    Value.oneOrMany (step.part "paths") = .ok ((Step.patterns step).map .str) := by
  obtain ⟨vs, hvs, htexts⟩ := h.patterns
  rw [Step.patterns, Value.textsIn, hvs]
  exact congrArg Except.ok (Value.map_str_filterMap htexts).symm

/-- The path check of a step is there before the step, if the patterns can be read. -/
theorem usePaths_spec : Ensures (usePaths (step.part "paths")) g
    (fun ids g' => ids = Step.checks step ∧ g' = g.withCheck (Step.patterns step))
    (fun _ => ¬ Step.Listed step) := by
  rw [usePaths]
  cases hps : Value.oneOrMany (step.part "paths") with
  | error e =>
    refine ensures_throw fun hl => ?_
    rw [oneOrMany_paths hl] at hps
    cases hps
  | ok vs =>
    refine ensures_bind_exec (exec_liftM_ok vs) ?_
    cases vs with
    | nil =>
      have hpat : Step.patterns step = [] := by rw [Step.patterns, Value.textsIn, hps]; rfl
      refine ensures_pure ⟨?_, ?_⟩
      · rw [Step.checks, if_pos hpat]
      · rw [withCheck, if_pos (Or.inl hpat)]
    | cons p rest =>
      cases hss : Value.strings (p :: rest) with
      | error e =>
        refine ensures_throw fun hl => ?_
        rw [Except.ok.inj (hps.symm.trans (oneOrMany_paths hl)), strings_map] at hss
        cases hss
      | ok ss =>
        have hmap := eq_map_of_strings hss
        have hpat : Step.patterns step = ss := by
          rw [Step.patterns, Value.textsIn, hps, hmap]
          exact Value.filterMap_string?_map ss
        have hne : ss ≠ [] := by
          rintro rfl
          cases hmap
        refine ensures_bind_exec (exec_liftM_ok ss) (ensures_bind_exec (exec_useCheck hne) ?_)
        refine ensures_pure ⟨?_, by rw [hpat]⟩
        rw [Step.checks, hpat, if_neg hne]

/-- Nothing can be taken from what is no mapping. -/
theorem take_of_fields?_none (key : Scalar) (h : step.fields? = none) :
    ∃ e, step.take key = .error e := by
  unfold Value.fields? at h
  unfold Value.take
  cases hu : step.unroll <;> simp_all

/-- **Adding a step.** -/
theorem addStep_spec (htext : TextNames table) (hg : HasSteps table i g) (hun : step.Unmarked)
    (hnames : Value.OnlyTexts (step.part "setup")) :
    Ensures (addStep table i step) g
      (fun r g' => r = (Step.plain step, []) ∧ StepAdded table i step g g' ∧ step.IsRecord)
      (fun e => Blame table (Step.setups step) e ∨ ¬ Step.Listed step) := by
  rw [addStep_eq]
  cases hf : step.fields? with
  | none =>
    obtain ⟨e, ht⟩ := take_of_fields?_none "paths" hf
    rw [ht]
    refine ensures_throw (Or.inr fun hl => ?_)
    obtain ⟨fields, hfields⟩ := hl.fields
    cases hf.symm.trans hfields
  | some fields =>
    obtain rfl := hun.eq_record hf
    have htake : (Value.record fields).take "paths" =
        .ok ((Value.record fields).part "paths", Fields.erase "paths" fields) := rfl
    have hsetup : Fields.get? "setup" (Fields.erase "paths" fields) =
        (Value.record fields).part "setup" := Fields.get?_erase_ne (by decide)
    rw [htake]
    refine ensures_bind_exec (exec_liftM_ok _) ?_
    simp only [Value.withFields_record, hsetup]
    refine (usePaths_spec.mono (fun _ _ h => h) fun _ => Or.inr).bind ?_
    rintro _ _ ⟨rfl, rfl⟩
    exact (enterStep_spec htext hg hnames).mono (fun _ _ h => ⟨h.1, h.2, fields, rfl⟩) fun _ h => h

/-! ## What adding a step keeps -/

theorem grows_withStep {v w : Value} (hnew : ¬ g.has (stepId i)) :
    Grows g (g.withStep i step v w) :=
  grows_withCheck.trans ((grows_addFresh (not_has_step_withCheck hnew)).trans grows_setContent)

theorem grows_linkPrior : Grows g (g.linkPrior i) := by
  unfold linkPrior
  split_ifs
  · exact grows_link
  · exact Grows.refl g

@[simp] theorem has_linkPrior : (g.linkPrior i).has x = g.has x := by
  unfold linkPrior
  split_ifs
  · exact has_link
  · rfl

theorem look_linkPrior : (g.linkPrior i).look x = (g.look x).map fun n =>
    if 0 < i ∧ x = stepId i then { n with before := addOnce (stepId (i - 1)) n.before } else n := by
  unfold linkPrior
  by_cases hi : 0 < i
  · simp only [hi, if_true, look_link, true_and]
  · rw [if_neg hi]
    cases g.look x <;> simp [hi]

theorem allResolved_withStep {v w : Value} (hg : HasSteps table i g) :
    AllResolved table (g.withStep i step v w) := by
  intro t ht
  rcases (has_withStep hg.new).mp ht with ht | ht | ht
  · exact (hg.resolved t ht).mono (grows_withStep hg.new)
  · exact absurd (isCheck_of_mem_checks ht) not_isCheck_setupId
  · exact absurd ht setupId_ne_stepId

theorem look_setup_withStep {v w : Value} (hg : HasSteps table i g) (s : String) :
    (g.withStep i step v w).look (setupId s) = g.look (setupId s) := by
  rw [withStep, look_setContent, look_addFresh (not_has_step_withCheck hg.new),
    if_neg setupId_ne_stepId, look_withCheck not_isCheck_setupId]
  cases g.look (setupId s) <;> simp [setupId_ne_stepId]

theorem look_setup_finish {v : Value} (s : String) :
    ((g.setContent (stepId i) v).linkPrior i).look (setupId s) = g.look (setupId s) := by
  rw [look_linkPrior, look_setContent]
  cases g.look (setupId s) <;> simp [setupId_ne_stepId]

section

variable (h : StepAdded table i step g g') (hg : HasSteps table i g)

include h hg

/-- A step keeps the invariant, and the graph grows. -/
theorem StepAdded.sound : Sound table g' ∧ Grows g g' := by
  obtain ⟨v, w, g₁, hv, rfl⟩ := h
  have hready : Ready table _ _ _ (g.withStep i step v w) := ready_withStep hg.sound hg.new
  obtain ⟨hs, hgr⟩ := hv.sound hready
  have hfirst := (grows_withStep hg.new).trans hgr
  refine ⟨?_, hfirst.trans (grows_setContent.trans grows_linkPrior)⟩
  unfold linkPrior
  split_ifs with hi
  · refine hs.setContent.link ?_ ?_ (.earlier (by omega))
    · rw [has_setContent]
      exact hgr.has ((has_withStep hg.new).mpr (Or.inr (Or.inr rfl)))
    · rw [has_setContent]
      exact hfirst.has (hg.prior hi)
  · exact hs.setContent

theorem StepAdded.allResolved : AllResolved table g' := by
  obtain ⟨v, w, g₁, hv, rfl⟩ := h
  intro s hs
  rw [has_linkPrior, has_setContent] at hs
  exact (hv.allResolved (ready_withStep hg.sound hg.new) (allResolved_withStep hg) s hs).mono
    (grows_setContent.trans grows_linkPrior)

/-- A step brings itself, its path check, and the setups that are reached from it. -/
theorem StepAdded.has_iff : g'.has x ↔ g.has x ∨ x ∈ Step.checks step ∨ x = stepId i ∨
    ∃ s, ReachedFrom table (Step.setups step) s ∧ x = setupId s := by
  obtain ⟨v, w, g₁, hv, rfl⟩ := h
  rw [has_linkPrior, has_setContent,
    hv.has_iff (ready_withStep hg.sound hg.new) (allResolved_withStep hg), has_withStep hg.new]
  tauto

theorem StepAdded.hasSteps : HasSteps table (i + 1) g' where
  sound := (h.sound hg).1
  resolved := h.allResolved hg
  steps j := by
    rw [h.has_iff hg, hg.steps]
    constructor
    · rintro (hj | hj | hj | ⟨s, -, hj⟩)
      · omega
      · exact absurd (isCheck_of_mem_checks hj) not_isCheck_stepId
      · have := stepId_inj.mp hj
        omega
      · exact absurd hj.symm setupId_ne_stepId
    · intro hj
      rcases Nat.lt_succ_iff_lt_or_eq.mp hj with hj | rfl
      · exact Or.inl hj
      · exact Or.inr (Or.inr (Or.inl rfl))

/-- Of other nodes that are no setups, a step brings its path check and leaves the rest alone. -/
theorem StepAdded.look_other (hx : x ≠ stepId i) (hset : ∀ s, x ≠ setupId s) :
    g'.look x = (g.withCheck (Step.patterns step)).look x := by
  obtain ⟨v, w, g₁, hv, rfl⟩ := h
  have hstart : (g.withStep i step v w).look x = (g.withCheck (Step.patterns step)).look x := by
    rw [withStep, look_setContent, look_addFresh (not_has_step_withCheck hg.new), if_neg hx]
    cases (g.withCheck (Step.patterns step)).look x <;> simp [hx]
  rw [look_linkPrior, look_setContent, hv.look_other (ready_withStep hg.sound hg.new) hset, hstart]
  cases (g.withCheck (Step.patterns step)).look x <;> simp [hx, hx.symm]

/-- Steps and path checks that were there before stay as they were. -/
theorem StepAdded.look_old (hx : g.has x) (hset : ∀ s, x ≠ setupId s) : g'.look x = g.look x := by
  rw [h.look_other hg (fun he => hg.new (he ▸ hx)) hset]
  unfold withCheck
  split_ifs with hc
  · rfl
  · have hnot : x ≠ Check.nodeId (Step.patterns step) := fun he => (not_or.mp hc).2 (he ▸ hx)
    rw [look_addFresh (not_or.mp hc).2, if_neg hnot]

/-- A new path check holds the sorted patterns of its step. -/
theorem StepAdded.look_check (hx : x ∈ Step.checks step) (hnew : ¬ g.has x) : ∃ n,
    g'.look x = some n ∧ n.content = .list ((Check.sortTexts (Step.patterns step)).map .str) := by
  obtain ⟨hne, rfl⟩ := mem_checks hx
  rw [h.look_other hg stepId_ne_nodeId.symm fun s => setupId_ne_nodeId.symm, withCheck,
    if_neg (not_or.mpr ⟨hne, hnew⟩), look_addFresh hnew, if_pos rfl]
  exact ⟨_, rfl, rfl⟩

/-- What the node of a step holds, and what it waits for. -/
theorem StepAdded.look_self : ∃ n, g'.look (stepId i) = some n ∧ n.kind = .step ∧
    n.content = Step.plain step ∧ n.pathDeps = conditions (Step.checks step) ∧
    ∀ y, y ∈ n.before ↔ y ∈ Step.checks step ∨ (∃ s ∈ Step.setups step, y = setupId s) ∨
      (0 < i ∧ y = stepId (i - 1)) := by
  obtain ⟨v, w, g₁, hv, rfl⟩ := h
  have hstart : (g.withStep i step v w).look (stepId i) = some ⟨stepId i, .step, w,
      conditions (Step.checks step), addAll [] (Step.checks step), []⟩ := by
    rw [withStep, look_setContent, look_addFresh (not_has_step_withCheck hg.new), if_pos rfl]
    simp
  rw [look_linkPrior, look_setContent,
    hv.look_other (ready_withStep hg.sound hg.new) fun s => setupId_ne_stepId.symm, hstart]
  simp only [Option.map_some, if_true, and_true]
  refine ⟨_, rfl, ?_⟩
  have hmem : ∀ y, y ∈ addAll (addAll [] (Step.checks step)) ((Step.setups step).map setupId) ↔
      y ∈ Step.checks step ∨ ∃ s ∈ Step.setups step, y = setupId s := by
    simp [eq_comm]
  split_ifs with hi
  · refine ⟨rfl, rfl, rfl, fun y => ?_⟩
    rw [mem_addOnce, Node.awaiting, hmem, or_assoc]
    simp [hi]
  · refine ⟨rfl, rfl, rfl, fun y => ?_⟩
    rw [Node.awaiting, hmem]
    simp [hi]

end

end Graph

end StepLoom
