import StepLoom.Proofs.Graph.Visits

/-!
# What a visit reaches

A setup is *resolved* when the graph has an edge from it to each setup that it needs. A visit leaves
every setup that it adds resolved, and its owner waiting for all the names.

**Theorem (`Visits.has_iff`).** If all setups of a graph are resolved, a visit adds exactly the
setups that are reached from its names.

**Theorem (`Visits.look_other`).** Of the nodes that are no setups, a visit changes only its owner,
which waits for the names from then on.
-/

namespace StepLoom

/-- A node that waits for some more setups. -/
def Node.awaiting (names : List String) (n : Node) : Node :=
  { n with before := addAll n.before (names.map Graph.setupId) }

namespace Graph

open Setup Relation

variable {table : Value} {g g' g₁ : Graph} {owner : Option String} {ids names : List String}

/-- The graph has an edge from the setup to each setup that it needs. -/
def Resolved (table : Value) (g : Graph) (s : String) : Prop :=
  ∀ t ∈ needs table s, g.Waits (setupId s) (setupId t)

/-- Every setup of the graph is resolved. -/
def AllResolved (table : Value) (g : Graph) : Prop :=
  ∀ s, g.has (setupId s) → Resolved table g s

theorem Resolved.mono {s : String} (h : Resolved table g s) (hg : Grows g g') :
    Resolved table g' s :=
  fun t ht => hg.waits (h t ht)

/-! ## Names and new setups -/

theorem waits_linkFrom {x y : String} (hx : g.has x) : (g.linkFrom (some x) y).Waits x y :=
  (waits_link hx).mpr (Or.inr ⟨rfl, rfl⟩)

/-- What a visit leaves behind. -/
structure Settles (table : Value) (owner : Option String) (names : List String) (g g' : Graph) :
    Prop where
  named : ∀ n ∈ names, g'.has (setupId n)
  owned : ∀ x, owner = some x → ∀ n ∈ names, g'.Waits x (setupId n)
  resolved : ∀ s, g'.has (setupId s) → g.has (setupId s) ∨ Resolved table g' s

/-- A visit of the rest settles all names if the first one is settled. -/
theorem Settles.cons {n : String} (hgr : Grows g g₁) (hn : g₁.has (setupId n))
    (hres : ∀ s, g₁.has (setupId s) → g.has (setupId s) ∨ Resolved table g₁ s)
    (howner : ∀ x, owner = some x → g.has x) (hrest : Grows (g₁.linkFrom owner (setupId n)) g')
    (h : Settles table owner names (g₁.linkFrom owner (setupId n)) g') :
    Settles table owner (n :: names) g g' where
  named m hm := by
    rcases List.mem_cons.mp hm with rfl | hm
    · exact hrest.has (by rwa [has_linkFrom])
    · exact h.named m hm
  owned x hx m hm := by
    rcases List.mem_cons.mp hm with rfl | hm
    · subst hx
      exact hrest.waits (waits_linkFrom (hgr.has (howner x rfl)))
    · exact h.owned x hx m hm
  resolved s hs := by
    rcases h.resolved s hs with hs | hs
    · rw [has_linkFrom] at hs
      exact (hres s hs).imp_right fun hr => hr.mono (grows_linkFrom.trans hrest)
    · exact Or.inr hs

/-- **A visit leaves its names in place and every new setup resolved.** -/
theorem Visits.settles (h : Visits table owner ids names g g')
    (hr : Ready table owner ids names g) : Settles table owner names g g' := by
  induction h with
  | nil => exact ⟨by simp, by simp, fun s hs => Or.inl hs⟩
  | known hn hp hrest ih =>
    have hs := hp.sound hr.sound (hr.isCheck _)
    have htail := hr.tail hs hp.grows (hp.has.mpr hn)
    exact (ih htail).cons hp.grows (hp.has.mpr hn) (fun s hs => Or.inl (hp.has.mp hs))
      (fun x hx => (hr.owner x hx).1) (hrest.sound htail).2
  | @fresh owner ids names n d g g₁ g₂ hn hd hinner hrest ihinner ih =>
    have hready := hr.inner hn hd
    obtain ⟨hs, hg₁⟩ := hinner.sound hready
    have hgr := (grows_addFresh hn).trans hg₁
    have hn₁ : g₁.has (setupId n) := hg₁.has ((has_addFresh hn).mpr (Or.inr rfl))
    have htail := hr.tail hs hgr hn₁
    have hsettled := ihinner hready
    refine (ih htail).cons hgr hn₁ (fun s hs => ?_) (fun x hx => (hr.owner x hx).1)
      (hrest.sound htail).2
    rcases hsettled.resolved s hs with h | h
    · rcases (has_addFresh hn).mp h with h | h
      · exact Or.inl h
      · -- The new setup itself waits for all that it needs by now.
        obtain rfl := setupId_inj.mp h
        exact Or.inr fun t ht => hsettled.owned _ rfl t ht
    · exact Or.inr h

theorem Visits.allResolved (h : Visits table owner ids names g g')
    (hr : Ready table owner ids names g) (hg : AllResolved table g) : AllResolved table g' := by
  intro s hs
  rcases (h.settles hr).resolved s hs with hs | hs
  · exact (hg s hs).mono (h.sound hr).2
  · exact hs

/-! ## Exactly what is reached -/

theorem Sound.has_of_resolved (hg : Sound table g) {s t : String} (hs : Resolved table g s)
    (ht : t ∈ needs table s) : g.has (setupId t) :=
  hg.wf.has_of_waits (hs t ht)

/-- Resolved setups are followed without leaving the graph. -/
theorem Sound.has_of_reaches (hg : Sound table g) {a b : String} (ha : g.has (setupId a))
    (hres : ∀ s, Reaches table a s → g.has (setupId s) → Resolved table g s)
    (h : Reaches table a b) : g.has (setupId b) := by
  induction h with
  | refl => exact ha
  | tail hab hb ih => exact hg.has_of_resolved (hres _ hab ih) hb

/-- Whatever a visit adds is a setup that is reached from the names. -/
theorem Visits.has_cases (h : Visits table owner ids names g g') {x : String} (hx : g'.has x) :
    g.has x ∨ ∃ s, ReachedFrom table names s ∧ x = setupId s := by
  induction h with
  | nil => exact Or.inl hx
  | known hn hp _ ih =>
    rcases ih hx with h | ⟨s, hs, rfl⟩
    · rw [has_linkFrom, hp.has] at h
      exact Or.inl h
    · exact Or.inr ⟨s, reachedFrom_cons.mpr (Or.inr hs), rfl⟩
  | @fresh owner ids names n d g g₁ g₂ hn hd hinner hrest ihinner ih =>
    rcases ih hx with h | ⟨s, hs, rfl⟩
    · rw [has_linkFrom] at h
      rcases ihinner h with h | ⟨s, hs, rfl⟩
      · rcases (has_addFresh hn).mp h with h | rfl
        · exact Or.inl h
        · exact Or.inr ⟨n, reachedFrom_cons.mpr (Or.inl .refl), rfl⟩
      · exact Or.inr ⟨s, reachedFrom_cons.mpr (Or.inl (reachedFrom_needs hs)), rfl⟩
    · exact Or.inr ⟨s, reachedFrom_cons.mpr (Or.inr hs), rfl⟩

/-- **A visit adds exactly the setups that are reached from its names.** -/
theorem Visits.has_iff (h : Visits table owner ids names g g')
    (hr : Ready table owner ids names g) (hg : AllResolved table g) {x : String} :
    g'.has x ↔ g.has x ∨ ∃ s, ReachedFrom table names s ∧ x = setupId s := by
  refine ⟨h.has_cases, ?_⟩
  have hall := h.allResolved hr hg
  rintro (hx | ⟨s, ⟨n, hn, hs⟩, rfl⟩)
  · exact (h.sound hr).2.has hx
  · exact (h.sound hr).1.has_of_reaches ((h.settles hr).named n hn) (fun s _ => hall s) hs

/-! ## Nodes that are no setups -/

/-- From a setup the walk only comes to setups that it reaches and to path checks. -/
theorem Sound.flows_from_setup (hg : Sound table g) (hids : ∀ p ∈ ids, IsCheck p) {n z : String}
    (h : ReflTransGen (g.Flows ids) (setupId n) z) :
    (∃ s, z = setupId s ∧ Reaches table n s) ∨ IsCheck z := by
  induction h with
  | refl => exact Or.inl ⟨n, rfl, .refl⟩
  | @tail y z _ hflow ih =>
    obtain ⟨k, hk, hz⟩ := hflow
    have hz' : z ∈ (k.touched ids).before := by
      unfold Node.onward at hz
      split_ifs at hz
      · simp at hz
      · exact hz
    rcases Node.mem_before_touched hz' with hb | hp
    · rcases ih with ⟨s, rfl, hs⟩ | hc
      · rcases (hg.of_setupId hk).2 z hb with ⟨t, ht, rfl⟩ | hc
        · exact Or.inl ⟨t, rfl, hs.tail ht⟩
        · exact Or.inr hc
      · obtain ⟨_, _, _, _, hnil⟩ := hg.check hk (hg.kind_check hc hk)
        simp [hnil] at hb
    · exact Or.inr (hids z hp)

/-- A walk from a setup leaves everything as it is that is no setup. -/
theorem PushedDown.look_other {n : String} (h : PushedDown (setupId n) ids g g')
    (hg : Sound table g) (hids : ∀ p ∈ ids, IsCheck p) {x : String} (hx : ∀ s, x ≠ setupId s) :
    g'.look x = g.look x := by
  by_cases hflow : ReflTransGen (g.Flows ids) (setupId n) x
  · rw [h.reached x hflow]
    rcases hg.flows_from_setup hids hflow with ⟨s, rfl, -⟩ | hc
    · exact absurd rfl (hx s)
    · cases hk : g.look x with
      | none => rfl
      | some k =>
        obtain ⟨_, _, _, hnone, _⟩ := hg.check hk (hg.kind_check hc hk)
        rw [Option.map_some, touched_of_none hnone]
  · exact h.others x hflow

theorem look_linkFrom {y z : String} : (g.linkFrom owner y).look z =
    (g.look z).map fun n =>
      if owner = some z then { n with before := addOnce y n.before } else n := by
  cases owner with
  | none =>
    rw [linkFrom]
    cases g.look z <;> simp
  | some x =>
    rw [linkFrom, look_link]
    congr 1
    funext n
    by_cases h : z = x
    · simp [h]
    · simp [h, Ne.symm h]

/-- **Of all that is no setup, a visit changes only what its owner waits for.** -/
theorem Visits.look_other (h : Visits table owner ids names g g')
    (hr : Ready table owner ids names g) {x : String} (hx : ∀ s, x ≠ setupId s) :
    g'.look x = (g.look x).map fun n => if owner = some x then Node.awaiting names n else n := by
  induction h with
  | @nil owner ids g =>
    cases g.look x with
    | none => rfl
    | some n => simp [Node.awaiting]
  | known hn hp hrest ih =>
    have hs := hp.sound hr.sound (hr.isCheck _)
    rw [ih (hr.tail hs hp.grows (hp.has.mpr hn)), look_linkFrom,
      hp.look_other hr.sound (hr.isCheck _) hx, Option.map_map]
    congr 1
    funext n
    simp only [Function.comp, Node.awaiting, List.map_cons, addAll_cons]
    split_ifs <;> rfl
  | @fresh owner ids names n d g g₁ g₂ hn hd hinner hrest ihinner ih =>
    have hready := hr.inner hn hd
    obtain ⟨hs, hg₁⟩ := hinner.sound hready
    have hgr := (grows_addFresh hn).trans hg₁
    have hn₁ : g₁.has (setupId n) := hg₁.has ((has_addFresh hn).mpr (Or.inr rfl))
    have hinside : g₁.look x = g.look x := by
      rw [ihinner hready, look_addFresh hn, if_neg (hx n)]
      cases g.look x with
      | none => rfl
      | some k => simp [(hx n).symm]
    rw [ih (hr.tail hs hgr hn₁), look_linkFrom, hinside, Option.map_map]
    congr 1
    funext n
    simp only [Function.comp, Node.awaiting, List.map_cons, addAll_cons]
    split_ifs <;> rfl

end Graph

end StepLoom
