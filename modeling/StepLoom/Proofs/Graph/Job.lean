import StepLoom.Proofs.Graph.Steps

/-!
# The graph of a job

A job adds its steps one after another, visits its own setups for the first step, and lets every
path check wait for the checkout. `Built` says so.

**Theorem (`addJob_spec`).** Building the graph of a job whose mappings stand at one place does this
and edits nothing but the job, or it fails: a setup is reached that is not defined, there is a path
check and the checkout is not reached, or the job or the table cannot be listed.
-/

namespace StepLoom

namespace Graph

open Setup Relation

variable {table job : Value} {g g' g₁ : Graph} {i : Nat} {steps : List Value} {x : String}

/-! ## All steps -/

/-- What adding steps from the `i`-th on makes of a graph. -/
inductive StepsAdded (table : Value) : Nat → List Value → Graph → Graph → Prop
  | nil (i : Nat) (g : Graph) : StepsAdded table i [] g g
  | cons {i : Nat} {step : Value} {rest : List Value} {g g₁ g₂ : Graph}
      (h : StepAdded table i step g g₁) (hr : StepsAdded table (i + 1) rest g₁ g₂) :
      StepsAdded table i (step :: rest) g g₂

theorem addSteps_spec (htext : TextNames table) (hg : HasSteps table i g)
    (hun : ∀ step ∈ steps, step.Unmarked)
    (hnames : ∀ step ∈ steps, Value.OnlyTexts (step.part "setup")) :
    Ensures (addSteps table i steps []) g
      (fun r g' => r = (steps.map Step.plain, []) ∧ StepsAdded table i steps g g' ∧
        ∀ step ∈ steps, step.IsRecord)
      (fun e => Blame table (steps.flatMap Step.setups) e ∨
        ∃ step ∈ steps, ¬ Step.Listed step) := by
  induction steps generalizing i g with
  | nil => exact ensures_pure ⟨rfl, .nil i g, by simp⟩
  | cons step rest ih =>
    rw [addSteps, Value.applyAll_nil, Value.applyAll_nil]
    refine ((addStep_spec htext hg (hun step (by simp)) (hnames step (by simp))).mono
      (fun _ _ h => h) fun e he => ?_).bind ?_
    · refine he.imp (fun hb => hb.mono fun n hn => ?_) fun hl => ⟨step, by simp, hl⟩
      rw [List.flatMap_cons]
      exact List.mem_append_left _ hn
    · rintro r g₁ ⟨rfl, hadd, hrec⟩
      have hrest := ih (hadd.hasSteps hg) (fun s hs => hun s (List.mem_cons_of_mem _ hs))
        fun s hs => hnames s (List.mem_cons_of_mem _ hs)
      refine (hrest.mono (fun _ _ h => h) fun e he => ?_).bind ?_
      · refine he.imp (fun hb => hb.mono fun n hn => ?_) fun ⟨s, hs, hl⟩ =>
          ⟨s, List.mem_cons_of_mem _ hs, hl⟩
        rw [List.flatMap_cons]
        exact List.mem_append_right _ hn
      · rintro r g₂ ⟨rfl, hrest, hrecs⟩
        exact ensures_pure ⟨rfl, .cons hadd hrest, List.forall_mem_cons.mpr ⟨hrec, hrecs⟩⟩

/-- What a graph has in common with its steps: the invariant, and that all of it is still there. -/
theorem StepsAdded.hasSteps (h : StepsAdded table i steps g g') (hg : HasSteps table i g) :
    HasSteps table (i + steps.length) g' := by
  induction h with
  | nil => exact hg
  | @cons i step rest g g₁ g₂ h _ ih =>
    rw [show i + (step :: rest).length = i + 1 + rest.length by rw [List.length_cons]; omega]
    exact ih (h.hasSteps hg)

/-- Steps bring themselves, their path checks, and the setups that are reached from them. -/
theorem StepsAdded.has_iff (h : StepsAdded table i steps g g') (hg : HasSteps table i g) :
    g'.has x ↔ g.has x ∨ (∃ j < steps.length, x = stepId (i + j)) ∨
      (∃ step ∈ steps, x ∈ Step.checks step) ∨
      ∃ step ∈ steps, ∃ s, ReachedFrom table (Step.setups step) s ∧ x = setupId s := by
  induction h with
  | nil => simp
  | @cons i step rest g g₁ g₂ h _ ih =>
    have hindex : (∃ j < (step :: rest).length, x = stepId (i + j)) ↔
        x = stepId i ∨ ∃ j < rest.length, x = stepId (i + 1 + j) := by
      rw [List.length_cons, Nat.exists_lt_succ_left]
      simp only [Nat.add_zero, Nat.add_assoc, Nat.add_comm 1]
    rw [ih (h.hasSteps hg), h.has_iff hg, hindex]
    simp only [List.mem_cons, exists_eq_or_imp]
    exact Iff.of_eq (by ac_rfl)

/-- Steps and path checks that were there before stay as they were. -/
theorem StepsAdded.look_old (h : StepsAdded table i steps g g') (hg : HasSteps table i g)
    (hx : g.has x) (hset : ∀ s, x ≠ setupId s) : g'.look x = g.look x := by
  induction h with
  | nil => rfl
  | cons h _ ih => rw [ih (h.hasSteps hg) ((h.sound hg).2.has hx), h.look_old hg hx hset]

/-- A path check holds the sorted patterns of the first step that has it. -/
theorem StepsAdded.look_check (h : StepsAdded table i steps g g') (hg : HasSteps table i g)
    (hcheck : IsCheck x) (hnew : ¬ g.has x) {step : Value}
    (hfirst : steps.find? (fun step => x ∈ Step.checks step) = some step) :
    ∃ n, g'.look x = some n ∧
      n.content = .list ((Check.sortTexts (Step.patterns step)).map .str) := by
  induction h with
  | nil => cases hfirst
  | @cons i step' rest g g₁ g₂ h hr ih =>
    rw [List.find?_cons] at hfirst
    by_cases hx : x ∈ Step.checks step'
    · simp only [hx, decide_true] at hfirst
      obtain rfl := Option.some.inj hfirst
      have hid := (mem_checks hx).2
      rw [hr.look_old (h.hasSteps hg) ((h.has_iff hg).mpr (Or.inr (Or.inl hx)))
        fun s he => setupId_ne_nodeId (he.symm.trans hid)]
      exact h.look_check hg hx hnew
    · simp only [hx, decide_false] at hfirst
      refine ih (h.hasSteps hg) (fun hhas => ?_) hfirst
      rcases (h.has_iff hg).mp hhas with hold | hc | rfl | ⟨s, -, rfl⟩
      · exact hnew hold
      · exact hx hc
      · exact not_isCheck_stepId hcheck
      · exact not_isCheck_setupId hcheck

/-- What the node of each step holds, and what it waits for. -/
theorem StepsAdded.look_step (h : StepsAdded table i steps g g') (hg : HasSteps table i g) {j : Nat}
    {step : Value} (hj : steps[j]? = some step) : ∃ n, g'.look (stepId (i + j)) = some n ∧
      n.kind = .step ∧ n.content = Step.plain step ∧ n.pathDeps = conditions (Step.checks step) ∧
      ∀ y, y ∈ n.before ↔ y ∈ Step.checks step ∨ (∃ s ∈ Step.setups step, y = setupId s) ∨
        (0 < i + j ∧ y = stepId (i + j - 1)) := by
  induction h generalizing j with
  | nil => simp at hj
  | @cons i step' rest g g₁ g₂ h hr ih =>
    cases j with
    | zero =>
      obtain rfl : step' = step := by simpa using hj
      have hself := (h.hasSteps hg).steps i
      rw [Nat.add_zero, hr.look_old (h.hasSteps hg) (hself.mpr (by omega))
        fun s => setupId_ne_stepId.symm]
      exact h.look_self hg
    | succ j =>
      rw [show i + (j + 1) = i + 1 + j by omega]
      exact ih (h.hasSteps hg) (by simpa using hj)

/-! ## Waiting for the checkout -/

/-- The graph in which those of some nodes that are path checks wait for the checkout. -/
def tieChecks (ns : List Node) (g : Graph) : Graph :=
  ns.foldl (fun g n => if n.kind = .paths then g.link n.id checkoutId else g) g

theorem tieChecks_cons {n : Node} {ns : List Node} : tieChecks (n :: ns) g =
    tieChecks ns (if n.kind = .paths then g.link n.id checkoutId else g) := rfl

theorem has_tieChecks {ns : List Node} : (g.tieChecks ns).has x = g.has x := by
  induction ns generalizing g with
  | nil => rfl
  | cons n ns ih =>
    rw [tieChecks_cons, ih]
    split_ifs
    · exact has_link
    · rfl

theorem WellFormed.tieChecks {ns : List Node} (hg : g.WellFormed) (hns : ∀ n ∈ ns, g.has n.id)
    (hco : (∃ n ∈ ns, n.kind = .paths) → g.has checkoutId) : (g.tieChecks ns).WellFormed := by
  induction ns generalizing g with
  | nil => exact hg
  | cons n ns ih =>
    rw [tieChecks_cons]
    split_ifs with hn
    · have hcheckout := hco ⟨n, by simp, hn⟩
      refine ih (hg.link (hns n (by simp)) hcheckout) (fun m hm => ?_) fun _ => ?_
      · rw [has_link]
        exact hns m (List.mem_cons_of_mem n hm)
      · rwa [has_link]
    · exact ih hg (fun m hm => hns m (List.mem_cons_of_mem n hm)) fun ⟨m, hm, hk⟩ =>
        hco ⟨m, List.mem_cons_of_mem n hm, hk⟩

open Classical in
theorem look_tieChecks {ns : List Node} : (g.tieChecks ns).look x = (g.look x).map fun n =>
    if ∃ m ∈ ns, m.id = x ∧ m.kind = .paths then { n with before := addOnce checkoutId n.before }
    else n := by
  induction ns generalizing g with
  | nil =>
    rw [tieChecks, List.foldl_nil]
    cases g.look x <;> simp
  | cons m ns ih =>
    rw [tieChecks_cons, ih]
    simp only [List.mem_cons, exists_eq_or_imp]
    by_cases hm : m.kind = .paths
    · rw [if_pos hm, look_link, Option.map_map]
      congr 1
      funext n
      simp only [Function.comp, hm, and_true]
      by_cases hx : m.id = x
      · have hx' : x = m.id := hx.symm
        simp only [hx', if_true, true_or]
        split_ifs
        · rw [addOnce_of_mem (mem_addOnce.mpr (Or.inr rfl))]
        · rfl
      · have hx' : x ≠ m.id := fun he => hx he.symm
        simp only [hx, hx', if_false, false_or]
    · simp only [hm, and_false, if_false, false_or]

theorem awaitCheckoutFrom_spec {ns : List Node} (hns : ∀ n ∈ ns, g.has n.id) :
    Ensures (awaitCheckoutFrom ns) g
      (fun _ g' => g' = g.tieChecks ns ∧ ((∃ n ∈ ns, n.kind = .paths) → g.has checkoutId))
      (fun e => e = .missingCheckout ∧ (∃ n ∈ ns, n.kind = .paths) ∧ ¬ g.has checkoutId) := by
  induction ns generalizing g with
  | nil => exact ensures_pure ⟨rfl, by simp⟩
  | cons n ns ih =>
    rw [awaitCheckoutFrom]
    have hrest : ∀ m ∈ ns, g.has m.id := fun m hm => hns m (List.mem_cons_of_mem n hm)
    by_cases hn : n.kind = .paths
    · rw [if_pos hn]
      refine ensures_bind_exec exec_get ?_
      by_cases hco : g.has checkoutId
      · rw [if_neg (by simpa using hco)]
        refine ensures_bind_exec (exec_addEdge (hns n (by simp)) hco) ?_
        refine (ih fun m hm => by rw [has_link]; exact hrest m hm).mono ?_ ?_
        · rintro _ g' ⟨rfl, -⟩
          exact ⟨by rw [tieChecks_cons, if_pos hn], fun _ => hco⟩
        · rintro e ⟨-, -, hnot⟩
          rw [has_link] at hnot
          exact absurd hco hnot
      · rw [if_pos (by simpa using hco)]
        exact ensures_throw ⟨rfl, ⟨n, by simp, hn⟩, hco⟩
    · rw [if_neg hn]
      refine (ih hrest).mono ?_ ?_
      · rintro _ g' ⟨rfl, hco⟩
        refine ⟨by rw [tieChecks_cons, if_neg hn], ?_⟩
        rintro ⟨m, hm, hk⟩
        rcases List.mem_cons.mp hm with rfl | hm
        · exact absurd hk hn
        · exact hco ⟨m, hm, hk⟩
      · rintro e ⟨rfl, ⟨m, hm, hk⟩, hnot⟩
        exact ⟨rfl, ⟨m, List.mem_cons_of_mem n hm, hk⟩, hnot⟩

/-! ## The whole job -/

theorem useSetups_spec (htext : TextNames table) {names : List String}
    (hr : Ready table none [] names g) : Ensures (useSetups table (names.map .str)) g
      (fun _ g' => Visits table none [] names g g') (Blame table names) := by
  induction names generalizing g with
  | nil => exact .nil _ _ _
  | cons n names ih =>
    have hone := (useSetup_spec htext hr.head).mono (fun _ _ h => h)
      fun e hb => (hb.mono (by simp) : Blame table (n :: names) e)
    have hdiscard : Ensures (discard (useSetup table (.str n) [])) g
        (fun _ g' => Visits table none [] [n] g g') (Blame table (n :: names)) := by
      unfold Ensures at hone ⊢
      rw [exec_discard]
      rcases hex : exec (useSetup table (.str n) []) g with ⟨e | r, g₁⟩
      · simpa [hex] using hone
      · rw [hex] at hone
        exact hone.2
    rw [List.map_cons, useSetups]
    refine hdiscard.bind fun _ g₁ hv => ?_
    obtain ⟨hs, hgr⟩ := hv.sound hr.head
    exact (ih (hr.tail hs hgr (hv.has_first hr.head))).mono (fun _ _ h => hv.cons h)
      fun e hb => hb.mono fun m hm => List.mem_cons_of_mem n hm

/-- The first step, which waits for the setups that the job names itself. -/
def firstStep (job : Value) : Option String :=
  if Job.steps job = [] then none else some (stepId 0)

/-- The graph of a job before the path checks wait for the checkout. -/
def Collected (table job : Value) (g : Graph) : Prop :=
  ∃ g₁, StepsAdded table 0 (Job.steps job) {} g₁ ∧
    Visits table (firstStep job) [] (Job.setups job) g₁ g

/-- The graph of a job. -/
def Built (table job : Value) (g : Graph) : Prop :=
  ∃ g₁, Collected table job g₁ ∧ g = g₁.tieChecks g₁.nodes ∧
    ((∃ n ∈ g₁.nodes, n.kind = .paths) → g₁.has checkoutId)

theorem hasSteps_empty : HasSteps table 0 {} where
  sound := sound_empty
  resolved s hs := by simp [has, find?] at hs
  steps j := by simp [has, find?]

theorem StepsAdded.ready (h : StepsAdded table 0 (Job.steps job) {} g) :
    Ready table (firstStep job) [] (Job.setups job) g where
  sound := (h.hasSteps hasSteps_empty).sound
  checks := by simp
  owner x hx := by
    unfold firstStep at hx
    split_ifs at hx with hnil
    obtain rfl := Option.some.inj hx
    refine ⟨((h.hasSteps hasSteps_empty).steps 0).mpr ?_, fun n _ => .setup 0 n⟩
    rw [Nat.zero_add]
    exact List.length_pos_iff.mpr hnil

theorem Collected.sound (h : Collected table job g) : Sound table g := by
  obtain ⟨g₁, hs, hv⟩ := h
  exact (hv.sound hs.ready).1

theorem Collected.allResolved (h : Collected table job g) : AllResolved table g := by
  obtain ⟨g₁, hs, hv⟩ := h
  exact hv.allResolved hs.ready (hs.hasSteps hasSteps_empty).resolved

/-- **The nodes are the steps, the path checks of the steps, and the setups that are reached.** -/
theorem Collected.has_iff (h : Collected table job g) : g.has x ↔
    (∃ i < (Job.steps job).length, x = stepId i) ∨ (∃ step ∈ Job.steps job, x ∈ Step.checks step) ∨
      ∃ s, Job.Reached table job s ∧ x = setupId s := by
  obtain ⟨g₁, hs, hv⟩ := h
  have hempty : ¬ Graph.has {} x := by simp [has, find?]
  have hset : (∃ s, Job.Reached table job s ∧ x = setupId s) ↔
      (∃ step ∈ Job.steps job, ∃ s, ReachedFrom table (Step.setups step) s ∧ x = setupId s) ∨
        ∃ s, ReachedFrom table (Job.setups job) s ∧ x = setupId s := by
    constructor
    · rintro ⟨s, hs, rfl⟩
      rcases Job.reached_iff.mp hs with ⟨step, hstep, hr⟩ | hr
      · exact Or.inl ⟨step, hstep, s, hr, rfl⟩
      · exact Or.inr ⟨s, hr, rfl⟩
    · rintro (⟨step, hstep, s, hr, rfl⟩ | ⟨s, hr, rfl⟩)
      · exact ⟨s, Job.reached_of_step hstep hr, rfl⟩
      · exact ⟨s, Job.reached_of_setups hr, rfl⟩
  rw [hv.has_iff hs.ready (hs.hasSteps hasSteps_empty).resolved, hs.has_iff hasSteps_empty, hset]
  simp only [hempty, Nat.zero_add, or_assoc, Bool.false_eq_true, false_or]

theorem Collected.has_setup (h : Collected table job g) {s : String} :
    g.has (setupId s) ↔ Job.Reached table job s := by
  rw [h.has_iff]
  constructor
  · rintro (⟨i, -, hi⟩ | ⟨step, -, hc⟩ | ⟨t, ht, hid⟩)
    · exact absurd hi setupId_ne_stepId
    · exact absurd (isCheck_of_mem_checks hc) not_isCheck_setupId
    · rwa [setupId_inj.mp hid]
  · exact fun hs => Or.inr (Or.inr ⟨s, hs, rfl⟩)

theorem Collected.has_check (h : Collected table job g) (hx : IsCheck x) :
    g.has x ↔ ∃ step ∈ Job.steps job, x ∈ Step.checks step := by
  rw [h.has_iff]
  constructor
  · rintro (⟨i, -, rfl⟩ | hc | ⟨t, -, rfl⟩)
    · exact absurd hx not_isCheck_stepId
    · exact hc
    · exact absurd hx not_isCheck_setupId
  · exact fun hc => Or.inr (Or.inl hc)

/-- There is a path check if some step has patterns. -/
theorem Collected.exists_paths_iff (h : Collected table job g) :
    (∃ n ∈ g.nodes, n.kind = .paths) ↔ ∃ step ∈ Job.steps job, Step.patterns step ≠ [] := by
  constructor
  · rintro ⟨n, hn, hk⟩
    have hfind := h.sound.wf.find?_of_mem hn
    obtain ⟨ps, hps, -⟩ := h.sound.check (x := n.id) (n := n.bare) (by rw [look, hfind]; rfl) hk
    obtain ⟨step, hstep, hc⟩ := (h.has_check ⟨ps, hps⟩).mp (Graph.has_iff.mpr ⟨n, hfind⟩)
    exact ⟨step, hstep, (mem_checks hc).1⟩
  · rintro ⟨step, hstep, hne⟩
    have hc : Check.nodeId (Step.patterns step) ∈ Step.checks step := by
      rw [Step.checks, if_neg hne]
      simp
    obtain ⟨n, hn⟩ := has_iff_look.mp ((h.has_check ⟨_, rfl⟩).mpr ⟨step, hstep, hc⟩)
    have hk := h.sound.kind_check ⟨_, rfl⟩ hn
    obtain ⟨m, hm, rfl⟩ := Option.map_eq_some_iff.mp hn
    exact ⟨m, mem_of_find? hm, hk⟩

/-- Why the graph of a job cannot be built. -/
inductive Unbuildable (table job : Value) : Fault → Prop
  | undefined {s : String} (hs : Job.Reached table job s)
      (hd : Setup.find? table (.str s) = .ok none) : Unbuildable table job (.unknownSetup s)
  | noCheckout (hall : ∀ s, Job.Reached table job s → ∃ d, definition? table s = some d)
      (hp : ∃ step ∈ Job.steps job, Step.patterns step ≠ [])
      (hc : ¬ Job.Reached table job checkoutSetup) : Unbuildable table job .missingCheckout
  | unlisted {e : Fault} (h : ¬ (WellShaped table ∧ Job.Listed job)) : Unbuildable table job e

theorem Unbuildable.of_blame {names : List String} {e : Fault} (h : Blame table names e)
    (hsub : ∀ n ∈ names, n ∈ Job.named job) : Unbuildable table job e := by
  rcases h with ⟨t, ⟨n, hn, ht⟩, hd, rfl⟩ | h
  · exact .undefined ⟨n, hsub n hn, ht⟩ hd
  · exact .unlisted fun h' => h h'.1

theorem Collected.defined (h : Collected table job g) {s : String} (hs : Job.Reached table job s) :
    ∃ d, definition? table s = some d := by
  obtain ⟨n, hn⟩ := has_iff_look.mp (h.has_setup.mpr hs)
  exact ⟨_, (h.sound.of_setupId hn).1⟩

/-- The last phase of building the graph. -/
theorem awaitCheckout_spec (h : Collected table job g) : Ensures awaitCheckout g
    (fun _ g' => Built table job g') (Unbuildable table job) := by
  refine ensures_bind_exec exec_get ?_
  have hhas : ∀ n ∈ g.nodes, g.has n.id := fun n hn => has_iff.mpr ⟨n, h.sound.wf.find?_of_mem hn⟩
  refine (awaitCheckoutFrom_spec hhas).mono ?_ ?_
  · rintro _ g' ⟨rfl, hco⟩
    exact ⟨g, h, rfl, hco⟩
  · rintro e ⟨rfl, hp, hco⟩
    exact .noCheckout (fun s hs => h.defined hs) (h.exists_paths_iff.mp hp)
      fun hr => hco (h.has_setup.mpr hr)

/-- The names of a job's own setups are texts. -/
theorem names_spec (htext : Job.TextNames table job) : Ensures (Graph.names (job.part "setup")) g
    (fun vs g' => vs = (Job.setups job).map .str ∧ g' = g) (Unbuildable table job) := by
  refine ensures_liftM (fun vs hvs => ⟨htext.job.eq hvs, rfl⟩) fun e he => .unlisted fun h => ?_
  obtain ⟨vs, hvs⟩ := h.2.setups
  cases he.symm.trans hvs

/-- The first step waits for the job's own setups. -/
theorem awaitOwn_spec (htext : Job.TextNames table job)
    (hg : StepsAdded table 0 (Job.steps job) {} g) (hfirst : firstStep job = some (stepId 0)) :
    Ensures (awaitSetups table (stepId 0) (job.part "setup") []) g
      (fun _ g' => Visits table (firstStep job) [] (Job.setups job) g g')
      (Unbuildable table job) := by
  have hready := hg.ready
  rw [hfirst] at hready ⊢
  refine (awaitSetups_spec htext.table htext.job hready).mono (fun _ _ h => h) fun e he => ?_
  rcases he with hb | hfail
  · exact Unbuildable.of_blame hb fun n hn => List.mem_append_right _ hn
  · refine .unlisted fun h => ?_
    obtain ⟨vs, hvs⟩ := h.2.setups
    cases hfail.symm.trans hvs

/-- Without a first step, nothing waits for the job's own setups. -/
theorem useOwn_spec (htext : Job.TextNames table job) (hg : StepsAdded table 0 (Job.steps job) {} g)
    (hfirst : firstStep job = none) : Ensures (useSetups table ((Job.setups job).map .str)) g
      (fun _ g' => Visits table (firstStep job) [] (Job.setups job) g g')
      (Unbuildable table job) := by
  have hready := hg.ready
  rw [hfirst] at hready ⊢
  exact (useSetups_spec htext.table hready).mono (fun _ _ h => h) fun e hb =>
    Unbuildable.of_blame hb fun n hn => List.mem_append_right _ hn

/-- A job is entered, once its steps are there. -/
theorem enterJob_spec {fields : Fields} {source : Option Value}
    (htext : Job.TextNames table (.record fields))
    (hsource : Value.given? ((Value.record fields).part "steps") = source)
    (hfirst : firstStep (.record fields) = if source.isSome then some (stepId 0) else none)
    (hg : StepsAdded table 0 (Job.steps (.record fields)) {} g) :
    Ensures
      (enterJob table (.record fields) source ((Job.steps (.record fields)).map Step.plain) []) g
      (fun r g' => r = (Job.plain (.record fields), []) ∧ Built table (.record fields) g')
      (Unbuildable table (.record fields)) := by
  subst hsource
  have hplain : Job.plain (.record fields) = .record
      (if (Value.given? ((Value.record fields).part "steps")).isSome
        then Fields.put "steps" (.list ((Job.steps (.record fields)).map Step.plain))
          (Fields.erase "setup" fields)
        else Fields.erase "setup" fields) := rfl
  have hlast : ∀ plain, Job.plain (.record fields) = plain → ∀ g',
      Visits table (firstStep (.record fields)) [] (Job.setups (.record fields)) g g' →
      Ensures (do awaitCheckout; return (plain, ([] : List Edit))) g'
        (fun r g'' => r = (Job.plain (.record fields), []) ∧ Built table (.record fields) g'')
        (Unbuildable table (.record fields)) := by
    rintro _ rfl g' hv
    exact (awaitCheckout_spec ⟨g, hg, hv⟩).bind fun _ g'' hb => ensures_pure ⟨rfl, hb⟩
  refine ensures_bind_exec (exec_liftM_ok fields) (ensures_bind_exec exec_replay_nil ?_)
  split_ifs at hfirst hplain ⊢
  · exact (awaitOwn_spec htext hg hfirst).bind fun _ => hlast _ hplain
  · refine (names_spec htext).bind ?_
    rintro _ _ ⟨rfl, rfl⟩
    exact (useOwn_spec htext hg hfirst).bind fun _ => hlast _ hplain

/-- **Building the graph of a job.** -/
theorem addJob_spec (htext : Job.TextNames table job) (hun : job.Unmarked) :
    Ensures (addJob table job) {}
      (fun r g => (r = (Job.plain job, []) ∧ job.IsRecord ∧
        ∀ step ∈ Job.steps job, step.IsRecord) ∧ Built table job g) (Unbuildable table job) := by
  rw [addJob_eq]
  cases hf : job.fields? with
  | none =>
    have hfield : job.field? "steps" = .error .noMember := by rw [Value.field?, hf]
    rw [hfield]
    refine ensures_throw (.unlisted fun h => ?_)
    obtain ⟨fields, hl⟩ := h.2.fields
    cases hf.symm.trans hl
  | some fields =>
    obtain rfl := hun.eq_record hf
    refine ensures_bind_exec (exec_liftM_ok ((Value.record fields).part "steps")) ?_
    cases hsource : Value.given? ((Value.record fields).part "steps") with
    | none =>
      -- A job without steps only has setups of its own.
      have hsteps : Job.steps (.record fields) = [] := by
        rw [Job.steps, Value.membersOrNone, hsource]
      have hadded : StepsAdded table 0 (Job.steps (.record fields)) {} {} := hsteps ▸ .nil 0 {}
      have hjob := enterJob_spec htext hsource (by rw [firstStep, if_pos hsteps]; rfl) hadded
      rw [hsteps] at hjob ⊢
      refine ensures_bind_exec (exec_pure _) (hjob.mono (fun r g h => ?_) fun _ h => h)
      exact ⟨⟨h.1, ⟨fields, rfl⟩, by simp⟩, h.2⟩
    | some v =>
      have hpart : (Value.record fields).part "steps" = some v :=
        Option.eq_some_of_filter_eq_some hsource
      dsimp only
      cases hms : v.members with
      | error e =>
        refine ensures_throw (.unlisted fun h => ?_)
        obtain ⟨vs, hl⟩ := h.2.steps
        rw [Value.membersOrNone, hsource] at hl
        cases hms.symm.trans hl
      | ok ms =>
        obtain rfl := Job.steps_of_given hsource hms
        have hne : Job.steps (.record fields) ≠ [] := by
          refine Value.members_ne_nil ?_ hms
          simpa using (Option.filter_eq_some_iff.mp hsource).2
        refine ensures_bind_exec (exec_liftM_ok _) ?_
        refine ((addSteps_spec htext.table hasSteps_empty ((hun.of_get? hpart).members hms)
          htext.steps).mono (fun _ _ h => h) fun e he => ?_).bind ?_
        · rcases he with hb | ⟨step, hstep, hl⟩
          · exact Unbuildable.of_blame hb fun n hn => List.mem_append_left _ hn
          · exact .unlisted fun h => hl (h.2.each step hstep)
        · rintro _ g₁ ⟨rfl, hadded, hrecs⟩
          have hjob := enterJob_spec htext hsource (by rw [firstStep, if_neg hne]; rfl) hadded
          exact hjob.mono (fun r g h => ⟨⟨h.1, ⟨fields, rfl⟩, hrecs⟩, h.2⟩) fun _ h => h

/-- A graph that is returned has been built, from mappings only. -/
theorem built_of_ofJob {r : Graph × Value × List Edit} (htext : Job.TextNames table job)
    (hun : job.Unmarked) (h : ofJob table job = .ok r) :
    Built table job r.1 ∧ r.2 = (Job.plain job, []) ∧ job.IsRecord ∧
      ∀ step ∈ Job.steps job, step.IsRecord := by
  rw [ofJob] at h
  have hspec := addJob_spec htext hun
  rcases hex : exec (addJob table job) {} with ⟨e | ⟨job', edits⟩, g⟩
  · rw [show (addJob table job).run.run {} = _ from hex] at h
    cases h
  · rw [show (addJob table job).run.run {} = _ from hex] at h
    obtain rfl := Except.ok.inj h
    obtain ⟨hrec, hb⟩ := hspec.of_ok hex
    exact ⟨hb, hrec⟩

theorem unbuildable_of_ofJob {e : Fault} (htext : Job.TextNames table job) (hun : job.Unmarked)
    (h : ofJob table job = .error e) : Unbuildable table job e := by
  rw [ofJob] at h
  rcases hex : exec (addJob table job) {} with ⟨e' | r, g⟩
  · rw [show (addJob table job).run.run {} = _ from hex] at h
    obtain rfl := Except.error.inj h
    exact (addJob_spec htext hun).of_error hex
  · rw [show (addJob table job).run.run {} = _ from hex] at h
    cases h

end Graph

end StepLoom
