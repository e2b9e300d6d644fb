import StepLoom.Proofs.Graph.Reached

/-!
# What a visit does to conditions

A visit under some path checks *widens* the conditions of all setups that are reached from its
names: a new setup gets the path checks, a conditional one gets those that it does not have yet. It
*clears* the conditions of a setup if there are no path checks, or if one of the names reaches the
checkout and the checkout reaches the setup.

**Theorem (`Visits.widens`).** If nothing reached from the names needs itself, a visit clears and
widens as said, and changes the conditions of no other setup.

The conditions of a known setup are pushed down along the edges of a graph that is still being
built. This comes to all that the setup reaches because, without cycles, it reaches no setup whose
edges are incomplete; and what lies behind the checkout needs no visit, since it has lost its
conditions when the checkout was met (`Tidy`).
-/

namespace StepLoom

namespace Graph

open Setup Relation

variable {table : Value} {g g' g₁ g₂ : Graph} {owner : Option String} {ids names : List String}
  {n s : String}

/-- The conditions of a setup, if the graph has it. -/
def cond (g : Graph) (s : String) : Option (Option (List String)) :=
  (g.look (setupId s)).map (·.pathDeps)

/-- A reference to the names under some path checks takes the conditions of the setup away. -/
def Clears (table : Value) (ids names : List String) (s : String) : Prop :=
  ids = [] ∨ ReachedFrom table names checkoutSetup ∧ Reaches table checkoutSetup s

/-- The conditions of a setup after one more reference under some path checks. -/
def widen (ids : List String) : Option (Option (List String)) → Option (List String)
  | none => some (addAll [] ids)
  | some none => none
  | some (some l) => some (addAll l ids)

theorem widen_widen (ids : List String) (c : Option (Option (List String))) :
    widen ids (some (widen ids c)) = widen ids c := by
  rcases c with _ | _ | l
  · simp [widen, addAll_addAll_self]
  · rfl
  · simp [widen, addAll_addAll_self]

/-- The conditions after a visit, from those before it. -/
structure Widens (table : Value) (ids names : List String) (g g' : Graph) : Prop where
  cleared : ∀ {s}, ReachedFrom table names s → Clears table ids names s → cond g' s = some none
  widened : ∀ {s}, ReachedFrom table names s → ¬ Clears table ids names s →
    cond g' s = some (widen ids (cond g s))
  others : ∀ {s}, ¬ ReachedFrom table names s → cond g' s = cond g s

/-- When a visit widens: nothing reached needs itself, all that is reached and there is resolved,
and under path checks the checkout and what it reaches are unconditional once it is there. -/
structure Tidy (table : Value) (ids names : List String) (g : Graph) : Prop where
  acyclic : ∀ {s}, ReachedFrom table names s → ∀ t ∈ needs table s, ¬ Reaches table t s
  resolved : ∀ {s}, ReachedFrom table names s → g.has (setupId s) → Resolved table g s
  checkout : ids ≠ [] → g.has checkoutId → ∀ s, Reaches table checkoutSetup s →
    cond g s = some none

/-! ## Conditions of setups -/

theorem Grows.cond_none (h : Grows g g') (hs : cond g s = some none) : cond g' s = some none := by
  obtain ⟨k, hk, hnone⟩ := Option.map_eq_some_iff.mp hs
  obtain ⟨k', hk', -, hd⟩ := h _ k hk
  rw [cond, hk', Option.map_some, hd hnone]

@[simp] theorem cond_linkFrom {y : String} : cond (g.linkFrom owner y) s = cond g s := by
  rw [cond, look_linkFrom, Option.map_map, cond]
  congr 1
  funext k
  simp only [Function.comp]
  split_ifs <;> rfl

theorem cond_addFresh {d : Value} (hn : ¬ g.has (setupId n)) :
    cond (g.addFresh (setupId n) .setup d ids) s =
      if s = n then some (conditions ids) else cond g s := by
  rw [cond, look_addFresh hn]
  simp only [setupId_inj]
  split_ifs <;> rfl

theorem pathDeps_touched (k : Node) : (k.touched ids).pathDeps =
    if ids = [] then none
    else if k.id = checkoutId then k.pathDeps
    else k.pathDeps.map (addAll · ids) := by
  unfold Node.touched
  split_ifs
  · rfl
  · rfl
  · cases h : k.pathDeps <;> simp [h]

theorem PushedDown.cond_reached {x : String} (h : PushedDown x ids g g')
    (hs : ReflTransGen (g.Flows ids) x (setupId s)) : cond g' s = (cond g s).map fun deps =>
      if ids = [] then none else if s = checkoutSetup then deps else deps.map (addAll · ids) := by
  rw [cond, h.reached _ hs, cond, Option.map_map, Option.map_map]
  cases hk : g.look (setupId s) with
  | none => rfl
  | some k =>
    have hid : k.id = checkoutId ↔ s = checkoutSetup := by
      rw [id_of_look hk]
      exact setupId_inj
    simp only [Option.map_some, Function.comp, pathDeps_touched, hid]

/-! ## References -/

theorem clears_cons : Clears table ids (n :: names) s ↔
    Clears table ids [n] s ∨ Clears table ids names s := by
  unfold Clears
  rw [reachedFrom_cons, reachedFrom_singleton]
  tauto

/-- What is cleared for another reason than a missing condition is reached. -/
theorem Clears.reachedFrom (h : Clears table ids names s) (hids : ids ≠ []) :
    ReachedFrom table names s := by
  obtain ⟨⟨m, hm, hco⟩, hs⟩ := h.resolve_left hids
  exact ⟨m, hm, hco.trans hs⟩

/-- One visit after another. -/
theorem Widens.cons (h : Widens table ids [n] g g₁)
    (h' : Widens table ids names (g₁.linkFrom owner (setupId n)) g₂) :
    Widens table ids (n :: names) g g₂ where
  cleared {s} hs hc := by
    by_cases hrest : ReachedFrom table names s
    · by_cases hcr : Clears table ids names s
      · exact h'.cleared hrest hcr
      · have hc₁ : Clears table ids [n] s := (clears_cons.mp hc).resolve_right hcr
        have hs₁ : ReachedFrom table [n] s := hc₁.reachedFrom fun hnil => hcr (Or.inl hnil)
        rw [h'.widened hrest hcr, cond_linkFrom, h.cleared hs₁ hc₁]
        rfl
    · rw [h'.others hrest, cond_linkFrom]
      have hs₁ : ReachedFrom table [n] s :=
        reachedFrom_singleton.mpr ((reachedFrom_cons.mp hs).resolve_right hrest)
      refine h.cleared hs₁ ((clears_cons.mp hc).elim id fun hcr => ?_)
      by_cases hnil : ids = []
      · exact Or.inl hnil
      · exact absurd (hcr.reachedFrom hnil) hrest
  widened {s} hs hc := by
    rw [clears_cons, not_or] at hc
    by_cases hrest : ReachedFrom table names s
    · rw [h'.widened hrest hc.2, cond_linkFrom]
      by_cases hs₁ : ReachedFrom table [n] s
      · rw [h.widened hs₁ hc.1, widen_widen]
      · rw [h.others hs₁]
    · rw [h'.others hrest, cond_linkFrom]
      have hfirst := (reachedFrom_cons.mp hs).resolve_right hrest
      exact h.widened (reachedFrom_singleton.mpr hfirst) hc.1
  others {s} hs := by
    rw [reachedFrom_cons, not_or, ← reachedFrom_singleton] at hs
    rw [h'.others hs.2, cond_linkFrom, h.others hs.1]

/-! ## A known setup -/

/-- What a setup reaches, a walk from it comes to, or it lies behind the checkout. -/
theorem Sound.flows_or_behind (ids : List String) (hg : Sound table g) (hn : g.has (setupId n))
    (hres : ∀ s, Reaches table n s → g.has (setupId s) → Resolved table g s)
    (h : Reaches table n s) : ReflTransGen (g.Flows ids) (setupId n) (setupId s) ∨
      ids ≠ [] ∧ Reaches table n checkoutSetup ∧ Reaches table checkoutSetup s := by
  induction h with
  | refl => exact Or.inl .refl
  | @tail a b hab hb ih =>
    rcases ih with ih | ⟨hids, hco, ha⟩
    · by_cases hblock : ids ≠ [] ∧ a = checkoutSetup
      · obtain ⟨hids, rfl⟩ := hblock
        exact Or.inr ⟨hids, hab, .step hb⟩
      · have ha := hg.has_of_reaches hn hres hab
        obtain ⟨k, hk, hbk⟩ := waits_iff_look.mp (hres a hab ha b hb)
        refine Or.inl (ih.tail ⟨k, hk, ?_⟩)
        rw [Node.onward, if_neg]
        · exact subset_before_touched k hbk
        · rintro ⟨hids, hid⟩
          rw [id_of_look hk] at hid
          exact hblock ⟨hids, setupId_inj.mp hid⟩
    · exact Or.inr ⟨hids, hco, ha.tail hb⟩

theorem Sound.reaches_of_flows (hg : Sound table g) (hids : ∀ p ∈ ids, IsCheck p)
    (h : ReflTransGen (g.Flows ids) (setupId n) (setupId s)) : Reaches table n s := by
  rcases hg.flows_from_setup hids h with ⟨t, ht, hr⟩ | hc
  · rwa [setupId_inj.mp ht]
  · exact absurd hc not_isCheck_setupId

/-- **Pushing conditions down widens them.** -/
theorem PushedDown.widens (h : PushedDown (setupId n) (idsFor n ids) g g₁)
    (hr : Ready table none ids [n] g) (hn : g.has (setupId n)) (ht : Tidy table ids [n] g) :
    Widens table ids [n] g g₁ := by
  have hres : ∀ s, Reaches table n s → g.has (setupId s) → Resolved table g s :=
    fun s hs => ht.resolved (reachedFrom_singleton.mpr hs)
  have hothers : ∀ {s}, ¬ ReachedFrom table [n] s → cond g₁ s = cond g s := by
    intro s hs
    rw [reachedFrom_singleton] at hs
    rw [cond, h.others _ fun hflow => hs (hr.sound.reaches_of_flows (hr.isCheck n) hflow), cond]
  by_cases hids : idsFor n ids = []
  · -- Without path checks the walk comes to all that is reached.
    have hclear : ∀ {s}, Reaches table n s → cond g₁ s = some none ∧ Clears table ids [n] s := by
      intro s hs
      have hflow := (hr.sound.flows_or_behind (idsFor n ids) hn hres hs).resolve_right
        fun hb => hb.1 hids
      obtain ⟨k, hk⟩ := has_iff_look.mp (hr.sound.has_of_reaches hn hres hs)
      refine ⟨by rw [h.cond_reached hflow, cond, hk]; simp [hids], ?_⟩
      unfold idsFor at hids
      split_ifs at hids with hco
      · exact Or.inr ⟨reachedFrom_singleton.mpr (hco ▸ .refl), hco ▸ hs⟩
      · exact Or.inl hids
    exact ⟨fun hs _ => (hclear (reachedFrom_singleton.mp hs)).1,
      fun hs hc => absurd (hclear (reachedFrom_singleton.mp hs)).2 hc, hothers⟩
  · have hne : ids ≠ [] := fun hnil => hids (by simp [idsFor, hnil])
    have heq : idsFor n ids = ids := by
      unfold idsFor at hids ⊢
      split_ifs at hids ⊢
      · exact absurd rfl hids
      · rfl
    rw [heq] at h
    refine ⟨fun hs hc => ?_, fun {s} hs hc => ?_, hothers⟩
    · obtain ⟨hco, hback⟩ := hc.resolve_left hne
      have hhas := hr.sound.has_of_reaches hn hres (reachedFrom_singleton.mp hco)
      exact h.grows.cond_none (ht.checkout hne hhas _ hback)
    · have hsn := reachedFrom_singleton.mp hs
      have hflow := (hr.sound.flows_or_behind ids hn hres hsn).resolve_right
        fun hb => hc (Or.inr ⟨reachedFrom_singleton.mpr hb.2.1, hb.2.2⟩)
      have hco : s ≠ checkoutSetup := by
        rintro rfl
        exact hc (Or.inr ⟨hs, .refl⟩)
      obtain ⟨k, hk⟩ := has_iff_look.mp (hr.sound.has_of_reaches hn hres hsn)
      rw [h.cond_reached hflow, cond, hk]
      simp only [Option.map_some, hne, hco, if_false]
      cases k.pathDeps <;> rfl

/-! ## A new setup -/

/-- What a new setup needs may be visited. -/
theorem Tidy.inner {d : Value} (h : Tidy table ids [n] g) (hn : ¬ g.has (setupId n)) :
    Tidy table (idsFor n ids) (needs table n)
      (g.addFresh (setupId n) .setup d (idsFor n ids)) where
  acyclic hs := h.acyclic (reachedFrom_singleton.mpr (reachedFrom_needs hs))
  resolved {s} hs hhas := by
    rcases (has_addFresh hn).mp hhas with hg | hself
    · exact (h.resolved (reachedFrom_singleton.mpr (reachedFrom_needs hs)) hg).mono
        (grows_addFresh hn)
    · obtain rfl := setupId_inj.mp hself
      obtain ⟨t, ht, hback⟩ := hs
      exact absurd hback (h.acyclic (reachedFrom_singleton.mpr .refl) t ht)
  checkout hids hhas s hs := by
    have hne : ids ≠ [] := fun hnil => hids (by simp [idsFor, hnil])
    have hco : checkoutSetup ≠ n := by
      rintro rfl
      exact hids (if_pos rfl)
    have hg : g.has checkoutId :=
      ((has_addFresh hn).mp hhas).resolve_right fun he => hco (setupId_inj.mp he)
    exact (grows_addFresh hn).cond_none (h.checkout hne hg s hs)

/-- **A new setup and what it needs get the conditions of the reference.** -/
theorem Widens.fresh {d : Value} (hn : ¬ g.has (setupId n)) (ht : Tidy table ids [n] g)
    (h : Widens table (idsFor n ids) (needs table n)
      (g.addFresh (setupId n) .setup d (idsFor n ids)) g₁) :
    Widens table ids [n] g g₁ := by
  have hself : ¬ ReachedFrom table (needs table n) n := fun ⟨t, hm, hback⟩ =>
    ht.acyclic (reachedFrom_singleton.mpr .refl) t hm hback
  have hcond : ∀ {s}, s ≠ n → cond (g.addFresh (setupId n) .setup d (idsFor n ids)) s = cond g s :=
    fun hne => by rw [cond_addFresh hn, if_neg hne]
  have hstart : cond g₁ n = some (conditions (idsFor n ids)) := by
    rw [h.others hself, cond_addFresh hn, if_pos rfl]
  have hnone : cond g n = none := by rw [cond, look_eq_none hn, Option.map_none]
  -- The checkout and whatever it needs take no conditions over.
  have hclears : ∀ {s}, ReachedFrom table (needs table n) s →
      (Clears table ids [n] s ↔ Clears table (idsFor n ids) (needs table n) s) := by
    intro s hs
    unfold Clears
    rw [reachedFrom_singleton]
    by_cases hco : n = checkoutSetup
    · subst hco
      simp only [idsFor, if_true, true_or, iff_true]
      exact Or.inr ⟨.refl, reachedFrom_needs hs⟩
    · rw [idsFor, if_neg hco, reaches_iff_needs]
      simp only [hco, false_or]
  have hreach : ∀ {s}, ReachedFrom table [n] s ↔ n = s ∨ ReachedFrom table (needs table n) s := by
    intro s
    rw [reachedFrom_singleton, reaches_iff_needs]
  refine ⟨fun {s} hs hc => ?_, fun {s} hs hc => ?_, fun {s} hs => ?_⟩
  · rcases hreach.mp hs with rfl | hs'
    · rw [hstart, conditions, if_pos]
      rcases hc with hnil | ⟨hco, hback⟩
      · simp [idsFor, hnil]
      · rw [reachedFrom_singleton, reaches_iff_needs] at hco
        rcases hco with hco | ⟨t, hm, hco⟩
        · exact if_pos hco
        · exact absurd ⟨t, hm, hco.trans hback⟩ hself
    · exact h.cleared hs' ((hclears hs').mp hc)
  · rcases hreach.mp hs with rfl | hs'
    · have hco : n ≠ checkoutSetup := by
        rintro rfl
        exact hc (Or.inr ⟨hs, .refl⟩)
      rw [hstart, hnone, conditions, idsFor, if_neg hco, if_neg fun hnil => hc (Or.inl hnil)]
      rfl
    · have hne : s ≠ n := fun he => hself (he ▸ hs')
      have hco : n ≠ checkoutSetup := by
        rintro rfl
        exact hc (Or.inr ⟨reachedFrom_singleton.mpr .refl, reachedFrom_singleton.mp hs⟩)
      rw [h.widened hs' fun hc' => hc ((hclears hs').mpr hc'), hcond hne, idsFor, if_neg hco]
  · rw [hreach, not_or] at hs
    rw [h.others hs.2, hcond (Ne.symm hs.1)]

/-! ## All names -/

/-- Once a first name has been visited, the rest may be. -/
theorem Tidy.tail (ht : Tidy table ids (n :: names) g) (hv : Visits table none ids [n] g g₁)
    (hr : Ready table none ids [n] g) (hw : Widens table ids [n] g g₁) :
    Tidy table ids names (g₁.linkFrom owner (setupId n)) where
  acyclic hs := ht.acyclic (reachedFrom_cons.mpr (Or.inr hs))
  resolved {s} hs hhas := by
    rw [has_linkFrom] at hhas
    refine Resolved.mono ?_ grows_linkFrom
    rcases (hv.settles hr).resolved s hhas with hg | hnew
    · exact (ht.resolved (reachedFrom_cons.mpr (Or.inr hs)) hg).mono (hv.sound hr).2
    · exact hnew
  checkout hids hhas s hs := by
    rw [has_linkFrom] at hhas
    rw [cond_linkFrom]
    by_cases hg : g.has checkoutId
    · exact (hv.sound hr).2.cond_none (ht.checkout hids hg s hs)
    · obtain ⟨t, ht, hid⟩ := (hv.has_cases hhas).resolve_left hg
      obtain rfl : checkoutSetup = t := setupId_inj.mp hid
      have hc : Clears table ids [n] s := Or.inr ⟨ht, hs⟩
      exact hw.cleared (hc.reachedFrom hids) hc

theorem Tidy.head (ht : Tidy table ids (n :: names) g) : Tidy table ids [n] g where
  acyclic hs := ht.acyclic (reachedFrom_cons.mpr (Or.inl (reachedFrom_singleton.mp hs)))
  resolved hs := ht.resolved (reachedFrom_cons.mpr (Or.inl (reachedFrom_singleton.mp hs)))
  checkout := ht.checkout

theorem Ready.head (hr : Ready table owner ids (n :: names) g) : Ready table none ids [n] g :=
  ⟨hr.sound, hr.checks, by simp⟩

/-- **A visit widens and clears conditions, and does nothing else to them.** -/
theorem Visits.widens (h : Visits table owner ids names g g') (hr : Ready table owner ids names g)
    (ht : Tidy table ids names g) : Widens table ids names g g' := by
  induction h with
  | nil => exact ⟨by simp [ReachedFrom], by simp [ReachedFrom], fun _ => rfl⟩
  | known hn hp _ ih =>
    have hv : Visits table none _ [_] _ _ := .known hn hp (.nil none _ _)
    have hw := hp.widens hr.head hn ht.head
    have hgr := (hv.sound hr.head)
    exact hw.cons (ih (hr.tail hgr.1 hgr.2 (hp.has.mpr hn)) (ht.tail hv hr.head hw))
  | fresh hn hd hi _ ihi ih =>
    have hv : Visits table none _ [_] _ _ := .fresh hn hd hi (.nil none _ _)
    have hw := Widens.fresh hn ht.head (ihi (hr.inner hn hd) (ht.head.inner hn))
    have hgr := (hv.sound hr.head)
    exact hw.cons (ih (hr.tail hgr.1 hgr.2 (hv.has_first hr.head)) (ht.tail hv hr.head hw))

end Graph

end StepLoom
