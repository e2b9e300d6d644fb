import StepLoom.Proofs.Graph.Ordering
import StepLoom.Proofs.Graph.References

/-!
# Cycles in the graph of a job

Steps only wait for earlier steps, for setups and for path checks, so no cycle passes through a
step. What is left are the references among setups, and the way from a setup over a path check to
the checkout, which closes a cycle if the checkout needs that setup.

**Theorem (`Built.cycle_iff`).** There is a cycle exactly if `Job.Cyclic` says so, in terms of
references alone.
-/

namespace StepLoom

open Setup Relation StepLoom.Graph

/-- Two ways in which the references of a job come back to where they started: a setup that needs
itself, and a setup that the checkout needs while it is first met on a walk under path checks. -/
def Job.Cyclic (table job : Value) : Prop :=
  (∃ s, Job.Reached table job s ∧ TransGen (fun a b => b ∈ needs table a) s s) ∨
    ∃ w ∈ Walk.firstMet table [] (Job.walks job), w.name ≠ checkoutSetup ∧
      Reaches table checkoutSetup w.name ∧ w.Conditional (Job.HasPaths job)

namespace Graph

variable {table job : Value} {g : Graph} {s x y : String}

/-- Only later steps wait for a step. -/
theorem Built.waits_for_step (h : Built table job g) {i : Nat} (hw : g.Waits x (stepId i)) :
    ∃ j, i < j ∧ x = stepId j := by
  obtain ⟨n, hn, hmem⟩ := waits_iff_look.mp hw
  rcases h.cases hn with ⟨j, st, hj, rfl, -⟩ | ⟨hx, -⟩ | ⟨s, -, rfl, -⟩
  · rcases (h.waits_step hj).mp hw with hc | ⟨s, -, hs⟩ | ⟨h0, hi⟩ | ⟨-, s, -, hs⟩
    · exact absurd (isCheck_of_mem_checks hc) not_isCheck_stepId
    · exact absurd hs.symm setupId_ne_stepId
    · exact ⟨j, by have := stepId_inj.mp hi; omega, rfl⟩
    · exact absurd hs.symm setupId_ne_stepId
  · exact absurd ((h.waits_check hx).mp hw).2.symm setupId_ne_stepId
  · rcases (h.setup hn).2.2.2 _ hmem with ⟨t, -, ht⟩ | hc
    · exact absurd ht.symm setupId_ne_stepId
    · exact absurd hc not_isCheck_stepId

theorem Built.step_waits (h : Built table job g) {i : Nat} (hw : TransGen g.Waits x (stepId i)) :
    ∃ j, i < j ∧ x = stepId j := by
  induction hw using TransGen.head_induction_on with
  | single hw => exact h.waits_for_step hw
  | head hw _ ih =>
    obtain ⟨j, hij, rfl⟩ := ih
    obtain ⟨k, hjk, rfl⟩ := h.waits_for_step hw
    exact ⟨k, hij.trans hjk, rfl⟩

/-- What a setup waits for are the setups that are reached from it, and, once a path check is among
them, all that the checkout waits for. -/
theorem Built.setup_waits (h : Built table job g) (hw : TransGen g.Waits (setupId s) y) :
    (∃ t, y = setupId t ∧ TransGen (fun a b => b ∈ needs table a) s t) ∨
      ∃ t, Reaches table s t ∧ Tied g t ∧ (IsCheck y ∨ ReflTransGen g.Waits checkoutId y) := by
  have hnext : ∀ {t z}, g.Waits (setupId t) z →
      (∃ u ∈ needs table t, z = setupId u) ∨ IsCheck z := by
    intro t z hz
    obtain ⟨n, hn, hmem⟩ := waits_iff_look.mp hz
    exact (h.setup hn).2.2.2 z hmem
  induction hw with
  | single hw =>
    rcases hnext hw with ⟨t, ht, rfl⟩ | hc
    · exact Or.inl ⟨t, rfl, .single ht⟩
    · exact Or.inr ⟨s, .refl, ⟨_, hc, hw⟩, Or.inl hc⟩
  | tail _ hw ih =>
    rcases ih with ⟨t, rfl, ht⟩ | ⟨t, ht, htied, hc | hco⟩
    · rcases hnext hw with ⟨u, hu, rfl⟩ | hc
      · exact Or.inl ⟨u, rfl, ht.tail hu⟩
      · exact Or.inr ⟨t, ht.to_reflTransGen, ⟨_, hc, hw⟩, Or.inl hc⟩
    · obtain ⟨-, rfl⟩ := (h.waits_check hc).mp hw
      exact Or.inr ⟨t, ht, htied, Or.inr .refl⟩
    · exact Or.inr ⟨t, ht, htied, Or.inr (hco.tail hw)⟩

/-- A setup that waits for a path check was first met on a walk under path checks. -/
theorem Built.exists_walk (h : Built table job g) (ht : Tied g s) :
    ∃ w ∈ Walk.firstMet table [] (Job.walks job), w.name = s ∧ s ≠ checkoutSetup ∧
      w.Conditional (Job.HasPaths job) := by
  have hhas : g.has (setupId s) := by
    obtain ⟨c, -, hw⟩ := ht
    exact hw.has
  obtain ⟨w, hw, rfl⟩ := List.mem_map.mp ((h.met.has s).mp hhas)
  exact ⟨w, hw, rfl, (h.met.tied w hw).mp ht⟩

/-- **The graph of a job has a cycle exactly if its references have one, or a path check leads back
to itself over the checkout.** -/
theorem Built.cycle_iff (h : Built table job g) :
    (∃ x, TransGen g.Waits x x) ↔ Job.Cyclic table job := by
  -- It is enough that the checkout reaches a setup that waits for a path check.
  have hback : ∀ {t}, Reaches table checkoutSetup t → Tied g t → Job.Cyclic table job := by
    intro t ht htied
    obtain ⟨w, hw, rfl, hne, hcond⟩ := h.exists_walk htied
    exact Or.inr ⟨w, hw, hne, ht, hcond⟩
  constructor
  · rintro ⟨x, hcycle⟩
    have hx : g.has x := by
      obtain ⟨b, hb, -⟩ := TransGen.head'_iff.mp hcycle
      exact hb.has
    obtain ⟨n, hn⟩ := has_iff_look.mp hx
    rcases h.cases hn with ⟨i, st, hi, rfl, -⟩ | ⟨hcheck, -⟩ | ⟨s, hs, rfl, -⟩
    · obtain ⟨j, hij, hid⟩ := h.step_waits hcycle
      rw [stepId_inj.mp hid] at hij
      exact absurd hij (Nat.lt_irrefl j)
    · obtain ⟨b, hb, hrest⟩ := TransGen.head'_iff.mp hcycle
      obtain ⟨-, rfl⟩ := (h.waits_check hcheck).mp hb
      rcases reflTransGen_iff_eq_or_transGen.mp hrest with rfl | hrest
      · exact absurd hcheck not_isCheck_setupId
      · rcases h.setup_waits hrest with ⟨t, rfl, -⟩ | ⟨t, ht, htied, -⟩
        · exact absurd hcheck not_isCheck_setupId
        · exact hback ht htied
    · rcases h.setup_waits hcycle with ⟨t, hid, ht⟩ | ⟨t, ht, htied, hc | hco⟩
      · rw [← setupId_inj.mp hid] at ht
        exact Or.inl ⟨s, hs, ht⟩
      · exact absurd hc not_isCheck_setupId
      · rcases reflTransGen_iff_eq_or_transGen.mp hco with hid | hco
        · rw [setupId_inj.mp hid] at ht
          exact hback ht htied
        · rcases h.setup_waits hco with ⟨u, hid, hu⟩ | ⟨u, hu, hutied, -⟩
          · rw [setupId_inj.mp hid] at ht
            exact hback (hu.to_reflTransGen.trans ht) htied
          · exact hback hu hutied
  · rintro (⟨s, hs, hcycle⟩ | ⟨w, hw, hne, hreach, hcond⟩)
    · exact ⟨setupId s, h.waits_of_transGen hs hcycle⟩
    · obtain ⟨c, hc, hwait⟩ := (h.met.tied w hw).mpr ⟨hne, hcond⟩
      have hhas := h.wf.has_of_waits hwait
      have hstep : TransGen (fun a b => b ∈ needs table a) checkoutSetup w.name :=
        (reflTransGen_iff_eq_or_transGen.mp hreach).resolve_left hne
      have hco : g.Waits c checkoutId := (h.waits_check hc).mpr ⟨hhas, rfl⟩
      exact ⟨c, .head hco ((h.waits_of_transGen (h.checkout hc hhas) hstep).tail hwait)⟩

end Graph

end StepLoom
