import StepLoom.Proofs.Graph.Job

/-!
# What is in the graph of a job

The nodes of a job's graph, what each holds, and what each waits for: a step for its path check, its
setups and the step before it, the first step also for the job's own setups; a setup for all setups
that it needs, and maybe for path checks; a path check for the checkout.
-/

namespace StepLoom

namespace Graph

open Setup Relation

variable {table job st : Value} {g g₁ : Graph} {i : Nat} {s x : String} {n : Node}

/-- What the node of each step holds, and what it waits for. -/
theorem Collected.look_step (h : Collected table job g) (hi : (Job.steps job)[i]? = some st) :
    ∃ n, g.look (stepId i) = some n ∧ n.kind = .step ∧ n.content = Step.plain st ∧
      n.pathDeps = conditions (Step.checks st) ∧
      ∀ y, y ∈ n.before ↔ y ∈ Step.checks st ∨ (∃ s ∈ Step.setups st, y = setupId s) ∨
        (0 < i ∧ y = stepId (i - 1)) ∨ (i = 0 ∧ ∃ s ∈ Job.setups job, y = setupId s) := by
  obtain ⟨g₁, hs, hv⟩ := h
  have hne : Job.steps job ≠ [] := by
    rintro hnil
    simp [hnil] at hi
  obtain ⟨n, hn, hk, hc, hd, hb⟩ := hs.look_step hasSteps_empty hi
  rw [Nat.zero_add] at hn hb
  rw [hv.look_other hs.ready fun s => setupId_ne_stepId.symm, hn, firstStep, if_neg hne]
  refine ⟨_, rfl, ?_⟩
  have hzero : some (stepId 0) = some (stepId i) ↔ i = 0 := by
    rw [Option.some_inj, stepId_inj, eq_comm]
  split_ifs with h0
  · refine ⟨hk, hc, hd, fun y => ?_⟩
    rw [show (Node.awaiting _ n).before = addAll n.before _ from rfl, mem_addAll, hb]
    simp only [hzero.mp h0, List.mem_map, true_and, or_assoc, eq_comm]
  · refine ⟨hk, hc, hd, fun y => ?_⟩
    rw [hb]
    simp only [show i ≠ 0 from fun he => h0 (hzero.mpr he), false_and, or_false]

/-- In the finished graph, path checks wait for the checkout and all else is as it was. -/
theorem Built.look_eq (h : Built table job g) : ∃ g₁, Collected table job g₁ ∧
    ∀ x, g.look x = (g₁.look x).map fun n =>
      if n.kind = .paths then { n with before := addOnce checkoutId n.before } else n := by
  obtain ⟨g₁, hcol, rfl, -⟩ := h
  refine ⟨g₁, hcol, fun x => ?_⟩
  rw [look_tieChecks]
  cases hx : g₁.look x with
  | none => rfl
  | some n =>
    have hiff : (∃ m ∈ g₁.nodes, m.id = x ∧ m.kind = .paths) ↔ n.kind = .paths := by
      obtain ⟨k, hk, rfl⟩ := Option.map_eq_some_iff.mp hx
      constructor
      · rintro ⟨m, hm, hid, hkind⟩
        have hm' := hcol.sound.wf.find?_of_mem hm
        rw [hid, hk] at hm'
        obtain rfl := Option.some.inj hm'
        exact hkind
      · exact fun hkind => ⟨k, mem_of_find? hk, id_of_find? hk, hkind⟩
    simp only [Option.map_some, hiff]

theorem Built.wf (h : Built table job g) : g.WellFormed := by
  obtain ⟨g₁, hcol, rfl, hco⟩ := h
  exact hcol.sound.wf.tieChecks
    (fun n hn => has_iff.mpr ⟨n, hcol.sound.wf.find?_of_mem hn⟩) hco

theorem Built.has_eq (h : Built table job g) : ∃ g₁, Collected table job g₁ ∧
    ∀ x, g.has x = g₁.has x := by
  obtain ⟨g₁, hcol, rfl, -⟩ := h
  exact ⟨g₁, hcol, fun x => has_tieChecks⟩

/-- **The nodes are the steps, the path checks of the steps, and the setups that are reached.** -/
theorem Built.has_iff (h : Built table job g) : g.has x ↔
    (∃ i < (Job.steps job).length, x = stepId i) ∨ (∃ step ∈ Job.steps job, x ∈ Step.checks step) ∨
      ∃ s, Job.Reached table job s ∧ x = setupId s := by
  obtain ⟨g₁, hcol, hhas⟩ := h.has_eq
  rw [hhas, hcol.has_iff]

theorem Built.has_setup (h : Built table job g) : g.has (setupId s) ↔ Job.Reached table job s := by
  obtain ⟨g₁, hcol, hhas⟩ := h.has_eq
  rw [hhas, hcol.has_setup]

theorem Built.has_check (h : Built table job g) (hx : IsCheck x) :
    g.has x ↔ ∃ step ∈ Job.steps job, x ∈ Step.checks step := by
  obtain ⟨g₁, hcol, hhas⟩ := h.has_eq
  rw [hhas, hcol.has_check hx]

theorem Built.has_step (h : Built table job g) : g.has (stepId i) ↔ i < (Job.steps job).length := by
  rw [h.has_iff]
  constructor
  · rintro (⟨j, hj, hid⟩ | ⟨step, -, hc⟩ | ⟨s, -, hid⟩)
    · rwa [stepId_inj.mp hid]
    · exact absurd (isCheck_of_mem_checks hc) not_isCheck_stepId
    · exact absurd hid.symm setupId_ne_stepId
  · exact fun hi => Or.inl ⟨i, hi, rfl⟩

theorem Built.checkout (h : Built table job g) (hx : IsCheck x) (hg : g.has x) :
    Job.Reached table job checkoutSetup := by
  obtain ⟨step, hstep, hc⟩ := (h.has_check hx).mp hg
  obtain ⟨g₁, hcol, rfl, hco⟩ := h
  exact hcol.has_setup.mp (hco (hcol.exists_paths_iff.mpr ⟨step, hstep, (mem_checks hc).1⟩))

/-- What the node of a step holds, and what it waits for. -/
theorem Built.step (h : Built table job g) (hi : (Job.steps job)[i]? = some st) :
    ∃ n, g.look (stepId i) = some n ∧ n.kind = .step ∧ n.content = Step.plain st ∧
      n.pathDeps = conditions (Step.checks st) ∧
      ∀ y, y ∈ n.before ↔ y ∈ Step.checks st ∨ (∃ s ∈ Step.setups st, y = setupId s) ∨
        (0 < i ∧ y = stepId (i - 1)) ∨ (i = 0 ∧ ∃ s ∈ Job.setups job, y = setupId s) := by
  obtain ⟨g₁, hcol, hlook⟩ := h.look_eq
  obtain ⟨n, hn, hk, hrest⟩ := hcol.look_step hi
  refine ⟨n, ?_, hk, hrest⟩
  rw [hlook, hn]
  simp [hk]

/-- A setup is as it was before the path checks were tied to the checkout. -/
theorem Built.look_setup (h : Built table job g) : ∃ g₁, Collected table job g₁ ∧
    ∀ s, g.look (setupId s) = g₁.look (setupId s) := by
  obtain ⟨g₁, hcol, hlook⟩ := h.look_eq
  refine ⟨g₁, hcol, fun s => ?_⟩
  rw [hlook]
  cases hn : g₁.look (setupId s) with
  | none => rfl
  | some n => simp [hcol.sound.kind_setup hn]

/-- What the node of a setup holds, and what it waits for. -/
theorem Built.setup (h : Built table job g) (hn : g.look (setupId s) = some n) :
    n.kind = .setup ∧ definition? table s = some n.content ∧
      (∀ t, setupId t ∈ n.before ↔ t ∈ needs table s) ∧
      ∀ y ∈ n.before, (∃ t ∈ needs table s, y = setupId t) ∨ IsCheck y := by
  obtain ⟨g₁, hcol, hlook⟩ := h.look_setup
  rw [hlook] at hn
  obtain ⟨hd, hb⟩ := hcol.sound.of_setupId hn
  refine ⟨hcol.sound.kind_setup hn, hd, fun t => ⟨fun ht => ?_, fun ht => ?_⟩, hb⟩
  · rcases hb _ ht with ⟨t', ht', hid⟩ | hc
    · rwa [setupId_inj.mp hid]
    · exact absurd hc not_isCheck_setupId
  · obtain ⟨k, hk, hmem⟩ := waits_iff_look.mp
      (hcol.allResolved s (has_iff_look.mpr ⟨n, hn⟩) t ht)
    rwa [Option.some.inj (hn.symm.trans hk)]

/-- A path check is that of some step, the first of which it has its patterns from. -/
theorem Collected.look_check (h : Collected table job g) (hx : IsCheck x) (hn : g.look x = some n) :
    n.content = .list ((Job.checkPatterns job x).map .str) := by
  obtain ⟨step, hstep, hmem⟩ := (h.has_check hx).mp (has_iff_look.mpr ⟨n, hn⟩)
  obtain ⟨g₁, hs, hv⟩ := h
  have hset : ∀ s, x ≠ setupId s := by
    rintro s rfl
    exact not_isCheck_setupId hx
  have howner : firstStep job ≠ some x := by
    unfold firstStep
    split_ifs
    · simp
    · intro he
      exact not_isCheck_stepId (Option.some.inj he ▸ hx)
  cases hfirst : (Job.steps job).find? fun step => x ∈ Step.checks step with
  | none => simpa [hmem] using List.find?_eq_none.mp hfirst step hstep
  | some first =>
    have hempty : ¬ Graph.has {} x := by simp [has, find?]
    obtain ⟨m, hm, hc⟩ := hs.look_check hasSteps_empty hx hempty hfirst
    rw [hv.look_other hs.ready hset, hm, Option.map_some, if_neg howner] at hn
    rw [← Option.some.inj hn, hc, Job.checkPatterns, hfirst]

/-- What a path check holds. It waits for the checkout. -/
theorem Built.check (h : Built table job g) (hx : IsCheck x) (hn : g.look x = some n) :
    n.kind = .paths ∧ n.pathDeps = none ∧ n.before = [checkoutId] ∧
      n.content = .list ((Job.checkPatterns job x).map .str) := by
  obtain ⟨g₁, hcol, hlook⟩ := h.look_eq
  rw [hlook, Option.map_eq_some_iff] at hn
  obtain ⟨k, hk, rfl⟩ := hn
  have hkind := hcol.sound.kind_check hx hk
  obtain ⟨-, -, -, hd, hb⟩ := hcol.sound.check hk hkind
  rw [if_pos hkind]
  have hc : k.content = _ := hcol.look_check hx hk
  exact ⟨hkind, hd, by simp [hb, addOnce], hc⟩

/-- A node waits for the path checks that it is conditioned on. -/
theorem Built.deps (h : Built table job g) (hn : g.look x = some n) {l : List String}
    (hl : n.pathDeps = some l) : l ≠ [] ∧ ∀ p ∈ l, p ∈ n.before ∧ IsCheck p := by
  obtain ⟨g₁, hcol, hlook⟩ := h.look_eq
  rw [hlook, Option.map_eq_some_iff] at hn
  obtain ⟨k, hk, rfl⟩ := hn
  have hdeps : k.pathDeps = some l → _ := hcol.sound.deps hk
  split_ifs at hl ⊢
  · obtain ⟨hne, hall⟩ := hdeps hl
    exact ⟨hne, fun p hp => ⟨mem_addOnce.mpr (Or.inl (hall p hp).1), (hall p hp).2⟩⟩
  · exact hdeps hl

/-! ## Who waits for whom -/

theorem Built.waits_step (h : Built table job g) (hi : (Job.steps job)[i]? = some st) :
    g.Waits (stepId i) x ↔ x ∈ Step.checks st ∨ (∃ s ∈ Step.setups st, x = setupId s) ∨
      (0 < i ∧ x = stepId (i - 1)) ∨ (i = 0 ∧ ∃ s ∈ Job.setups job, x = setupId s) := by
  obtain ⟨n, hn, -, -, -, hb⟩ := h.step hi
  rw [waits_iff_look, ← hb]
  constructor
  · rintro ⟨m, hm, hx⟩
    rwa [Option.some.inj (hn.symm.trans hm)]
  · exact fun hx => ⟨n, hn, hx⟩

theorem Built.waits_setup (h : Built table job g) {t : String} :
    g.Waits (setupId s) (setupId t) ↔ Job.Reached table job s ∧ t ∈ needs table s := by
  rw [waits_iff_look, ← h.has_setup, has_iff_look]
  constructor
  · rintro ⟨n, hn, ht⟩
    exact ⟨⟨n, hn⟩, ((h.setup hn).2.2.1 t).mp ht⟩
  · rintro ⟨⟨n, hn⟩, ht⟩
    exact ⟨n, hn, ((h.setup hn).2.2.1 t).mpr ht⟩

theorem Built.waits_check (h : Built table job g) (hx : IsCheck x) {y : String} :
    g.Waits x y ↔ g.has x ∧ y = checkoutId := by
  rw [waits_iff_look, has_iff_look]
  constructor
  · rintro ⟨n, hn, hy⟩
    rw [(h.check hx hn).2.2.1, List.mem_singleton] at hy
    exact ⟨⟨n, hn⟩, hy⟩
  · rintro ⟨⟨n, hn⟩, rfl⟩
    exact ⟨n, hn, by simp [(h.check hx hn).2.2.1]⟩

/-- Whatever is reached from a setup has to wait for all that is reached from there. -/
theorem Built.waits_of_transGen (h : Built table job g) {t : String} (hs : Job.Reached table job s)
    (ht : TransGen (fun a b => b ∈ needs table a) s t) :
    TransGen g.Waits (setupId s) (setupId t) := by
  obtain ⟨n, hn, hns⟩ := hs
  induction ht with
  | single ht => exact .single (h.waits_setup.mpr ⟨⟨n, hn, hns⟩, ht⟩)
  | @tail b c hsb hbc ih =>
    exact ih.tail (h.waits_setup.mpr ⟨⟨n, hn, hns.trans hsb.to_reflTransGen⟩, hbc⟩)

/-- What waits for some setups waits for all that they reach. -/
theorem Built.waits_of_reachedFrom (h : Built table job g) {names : List String}
    (hx : ∀ n ∈ names, Job.Reached table job n ∧ g.Waits x (setupId n))
    (hs : ReachedFrom table names s) : TransGen g.Waits x (setupId s) := by
  obtain ⟨n, hn, hr⟩ := hs
  obtain ⟨hreached, hwait⟩ := hx n hn
  rcases Relation.reflTransGen_iff_eq_or_transGen.mp hr with rfl | hr
  · exact .single hwait
  · exact .head hwait (h.waits_of_transGen hreached hr)

/-- A later step waits for an earlier one. -/
theorem Built.waits_steps (h : Built table job g) {j : Nat} (hij : i < j)
    (hj : j < (Job.steps job).length) : TransGen g.Waits (stepId j) (stepId i) := by
  have hprior : ∀ k < (Job.steps job).length, 0 < k → g.Waits (stepId k) (stepId (k - 1)) :=
    fun k hk h0 => (h.waits_step (List.getElem?_eq_getElem hk)).mpr
      (Or.inr (Or.inr (Or.inl ⟨h0, rfl⟩)))
  induction j with
  | zero => omega
  | succ j ih =>
    have hlast := hprior (j + 1) hj (by omega)
    rw [Nat.add_sub_cancel] at hlast
    rcases Nat.lt_succ_iff_lt_or_eq.mp hij with hlt | rfl
    · exact .head hlast (ih hlt (by omega))
    · exact .single hlast

/-- A step waits for all setups that are reached from it. -/
theorem Built.waits_setups (h : Built table job g) (hi : (Job.steps job)[i]? = some st)
    (hs : ReachedFrom table (Step.setups st) s) : TransGen g.Waits (stepId i) (setupId s) := by
  refine h.waits_of_reachedFrom (fun n hn => ⟨?_, ?_⟩) hs
  · exact Job.reached_of_step (List.mem_of_getElem? hi) ⟨n, hn, .refl⟩
  · exact (h.waits_step hi).mpr (Or.inr (Or.inl ⟨n, hn, rfl⟩))

/-- A step waits for all setups that are reached from the job itself. -/
theorem Built.waits_own (h : Built table job g) (hi : i < (Job.steps job).length)
    (hs : ReachedFrom table (Job.setups job) s) : TransGen g.Waits (stepId i) (setupId s) := by
  -- The first step waits for these setups, and every other step waits for the first one.
  have h0 := List.getElem?_eq_getElem (Nat.zero_lt_of_lt hi)
  have hfirst : TransGen g.Waits (stepId 0) (setupId s) := by
    refine h.waits_of_reachedFrom (fun n hn => ⟨Job.reached_of_setups ⟨n, hn, .refl⟩, ?_⟩) hs
    exact (h.waits_step h0).mpr (Or.inr (Or.inr (Or.inr ⟨rfl, n, hn, rfl⟩)))
  rcases Nat.eq_zero_or_pos i with rfl | hpos
  · exact hfirst
  · exact (h.waits_steps hpos hi).trans hfirst

/-- Every node is a step, a path check or a setup, as its kind tells. -/
theorem Built.cases (h : Built table job g) (hn : g.look x = some n) :
    (∃ i st, (Job.steps job)[i]? = some st ∧ x = stepId i ∧ n.kind = .step) ∨
      (IsCheck x ∧ n.kind = .paths) ∨
      ∃ s, Job.Reached table job s ∧ x = setupId s ∧ n.kind = .setup := by
  rcases h.has_iff.mp (has_iff_look.mpr ⟨n, hn⟩) with ⟨i, hi, rfl⟩ | ⟨step, -, hc⟩ | ⟨s, hs, rfl⟩
  · obtain ⟨m, hm, hk, -⟩ := h.step (List.getElem?_eq_getElem hi)
    obtain rfl := Option.some.inj (hm.symm.trans hn)
    exact Or.inl ⟨i, _, List.getElem?_eq_getElem hi, rfl, hk⟩
  · have hx := isCheck_of_mem_checks hc
    exact Or.inr (Or.inl ⟨hx, (h.check hx hn).1⟩)
  · exact Or.inr (Or.inr ⟨s, hs, rfl, (h.setup hn).1⟩)

end Graph

end StepLoom
