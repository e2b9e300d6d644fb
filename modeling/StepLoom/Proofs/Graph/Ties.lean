import StepLoom.Proofs.Graph.Conditions
import StepLoom.Proofs.Meetings

/-!
# Edges from setups to path checks

A setup is *tied* when it waits for a path check. It is tied when it is added under path checks, and
stays so even if it loses its conditions later; a setup that is added without them is never tied.

**Theorem (`Visits.meets`).** After a visit, the setups in the graph are those that have been met,
and the tied ones are those that were first met on a walk under path checks, except the checkout.
-/

namespace StepLoom

namespace Graph

open Setup Relation

variable {table : Value} {g g' g₁ : Graph} {owner : Option String} {ids names : List String}
  {n s : String}

/-- The setup waits for a path check. -/
def Tied (g : Graph) (s : String) : Prop := ∃ c, IsCheck c ∧ g.Waits (setupId s) c

theorem Grows.tied (h : Grows g g') (hs : Tied g s) : Tied g' s := by
  obtain ⟨c, hc, hw⟩ := hs
  exact ⟨c, hc, h.waits hw⟩

/-- Pushing conditions down ties no setup that was not tied before. -/
theorem PushedDown.tied_iff {x : String} (h : PushedDown x ids g g') (hg : Sound table g) :
    Tied g' s ↔ Tied g s := by
  refine ⟨fun ⟨c, hc, hw⟩ => ?_, h.grows.tied⟩
  obtain ⟨k', hk', hck'⟩ := waits_iff_look.mp hw
  obtain ⟨k, hk, rfl | rfl⟩ := h.look_cases hk'
  · exact ⟨c, hc, waits_iff_look.mpr ⟨_, hk, hck'⟩⟩
  · rcases touched_cases ids k with ⟨ht, -⟩ | ⟨ht, -⟩ | ⟨l, hl, -⟩
    · exact ⟨c, hc, waits_iff_look.mpr ⟨k, hk, by rwa [ht] at hck'⟩⟩
    · exact ⟨c, hc, waits_iff_look.mpr ⟨k, hk, by rwa [ht] at hck'⟩⟩
    · -- A conditional node already waits for the path checks it is conditioned on.
      obtain ⟨hne, hall⟩ := hg.deps hk hl
      obtain ⟨p, hp⟩ := List.exists_mem_of_ne_nil l hne
      exact ⟨p, (hall p hp).2, waits_iff_look.mpr ⟨k, hk, (hall p hp).1⟩⟩

theorem tied_linkFrom : Tied (g.linkFrom owner (setupId n)) s ↔ Tied g s := by
  refine ⟨fun ⟨c, hc, hw⟩ => ?_, grows_linkFrom.tied⟩
  obtain ⟨k', hk', hck⟩ := waits_iff_look.mp hw
  rw [look_linkFrom, Option.map_eq_some_iff] at hk'
  obtain ⟨k, hk, rfl⟩ := hk'
  refine ⟨c, hc, waits_iff_look.mpr ⟨k, hk, ?_⟩⟩
  split_ifs at hck
  · rcases mem_addOnce.mp hck with hck | rfl
    · exact hck
    · exact absurd hc not_isCheck_setupId
  · exact hck

theorem tied_addFresh {d : Value} (hn : ¬ g.has (setupId n)) (hids : ∀ p ∈ ids, IsCheck p) :
    Tied (g.addFresh (setupId n) .setup d ids) s ↔ if s = n then ids ≠ [] else Tied g s := by
  unfold Tied
  simp only [waits_iff_look, look_addFresh hn, setupId_inj]
  split_ifs with hs
  · constructor
    · rintro ⟨c, -, k, hk, hck⟩ rfl
      obtain rfl := Option.some.inj hk
      simp at hck
    · intro hne
      obtain ⟨p, hp⟩ := List.exists_mem_of_ne_nil ids hne
      exact ⟨p, hids p hp, _, rfl, mem_addAll.mpr (Or.inr hp)⟩
  · rfl

/-- The setups of a graph are those that the walks have met, and a walk under path checks ties all
but the checkout. -/
structure Met (hasPaths : Option Nat → Prop) (met : List Walk) (g : Graph) : Prop where
  has : ∀ s, g.has (setupId s) ↔ s ∈ Walk.ends met
  tied : ∀ w ∈ met, Tied g w.name ↔ w.name ≠ checkoutSetup ∧ w.Conditional hasPaths

theorem Met.linkFrom {hasPaths : Option Nat → Prop} {met : List Walk} (h : Met hasPaths met g) :
    Met hasPaths met (g.linkFrom owner (setupId n)) where
  has s := by rw [has_linkFrom, h.has]
  tied w hw := by rw [tied_linkFrom, h.tied w hw]

theorem idsFor_ne_nil : idsFor n ids ≠ [] ↔ n ≠ checkoutSetup ∧ ids ≠ [] := by
  unfold idsFor
  split_ifs with h <;> simp [h]

/-- **A visit goes the walks in depth-first order, and ties what it meets under path checks.** -/
theorem Visits.meets (h : Visits table owner ids names g g') (hr : Ready table owner ids names g)
    {hasPaths : Option Nat → Prop} {met : List Walk} (hm : Met hasPaths met g)
    {start : Option Nat} {via : List String}
    (hids : ids ≠ [] ↔ hasPaths start ∧ checkoutSetup ∉ via) :
    Met hasPaths (Walk.firstMet table met (Walk.each start via names)) g' := by
  induction h generalizing met via with
  | nil => rwa [Walk.each, List.map_nil, Walk.firstMet_nil]
  | @known owner ids names n g g₁ g₂ hn hp _ ih =>
    have hs := hp.sound hr.sound (hr.isCheck _)
    have hm₁ : Met hasPaths met g₁ :=
      ⟨fun s => by rw [hp.has, hm.has], fun w hw => by rw [hp.tied_iff hr.sound, hm.tied w hw]⟩
    rw [Walk.each, List.map_cons, Walk.firstMet_skip ((hm.has _).mp hn)]
    exact ih (hr.tail hs hp.grows (hp.has.mpr hn)) hm₁.linkFrom hids
  | @fresh owner ids names n d g g₁ g₂ hn hd hi _ ihi ih =>
    have hready := hr.inner hn hd
    obtain ⟨hs, hg₁⟩ := hi.sound hready
    have hgr := (grows_addFresh hn).trans hg₁
    have hn₁ : g₁.has (setupId n) := hg₁.has ((has_addFresh hn).mpr (Or.inr rfl))
    have hnot : n ∉ Walk.ends met := fun h => hn ((hm.has n).mpr h)
    have hinner : idsFor n ids ≠ [] ↔ hasPaths start ∧ checkoutSetup ∉ via ++ [n] := by
      rw [idsFor_ne_nil, hids, List.mem_append, List.mem_singleton, not_or]
      tauto
    have hm₀ : Met hasPaths (met ++ [⟨start, via, n⟩])
        (g.addFresh (setupId n) .setup d (idsFor n ids)) := by
      refine ⟨fun s => ?_, fun w hw => ?_⟩
      · rw [has_addFresh hn, hm.has, setupId_inj, Walk.ends_append, List.mem_append]
        simp [Walk.ends]
      · rw [tied_addFresh hn (hr.isCheck n)]
        rcases List.mem_append.mp hw with hw | hw
        · have hne : w.name ≠ n := fun he => hnot (he ▸ List.mem_map_of_mem hw)
          rw [if_neg hne, hm.tied w hw]
        · obtain rfl := List.mem_singleton.mp hw
          rw [if_pos rfl, idsFor_ne_nil, hids]
          rfl
    rw [Walk.each, List.map_cons, Walk.firstMet_enter hnot, Walk.firstMet_append]
    exact ih (hr.tail hs hgr hn₁) (ihi hready hm₀ hinner).linkFrom hids

end Graph

end StepLoom
