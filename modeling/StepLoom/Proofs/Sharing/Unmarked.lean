import StepLoom.Proofs.Graph.Noting
import StepLoom.Proofs.Sharing

/-!
# Documents without shared mappings

An unmarked document has no mapping at two places, and neither have its jobs, their steps and its
setups.

**Theorem (`standAlone_of_unmarked`).** No job and no step of an unmarked document stands at a
second place.
-/

namespace StepLoom

open Value

variable {doc job v w : Value} {key : Scalar}

theorem Value.Unmarked.standsAlone (h : v.Unmarked) : v.StandsAlone := by
  rintro m fields rfl
  simp [Unmarked, marks] at h

theorem Value.unmarked_iff : v.Unmarked ↔ v.Within fun _ => False :=
  List.eq_nil_iff_forall_not_mem

theorem Value.Unmarked.part (h : v.Unmarked) (hw : v.part key = some w) : w.Unmarked :=
  unmarked_iff.mpr ((unmarked_iff.mp h).part hw)

theorem Value.Unmarked.jobs (h : doc.Unmarked) : ∀ f ∈ Workflow.jobs doc, f.2.Unmarked := by
  intro f hf
  rw [Workflow.jobs] at hf
  split at hf
  · next source hsource =>
    cases hfields : source.fields? with
    | none => simp [hfields] at hf
    | some js =>
      rw [hfields] at hf
      have hwithin := (unmarked_iff.mp h).part (Option.eq_some_of_filter_eq_some hsource)
      exact unmarked_iff.mpr (hwithin.fields? hfields f hf)
  · cases hf

theorem Value.Unmarked.steps (h : job.Unmarked) : ∀ step ∈ Job.steps job, step.Unmarked :=
  fun _ hstep => unmarked_iff.mpr ((Graph.within_of_mem_steps hstep).mono fun m hm => by
    rw [h] at hm
    cases hm)

theorem Value.Unmarked.table {setup : Option Value} (h : ∀ v, setup = some v → v.Unmarked) :
    (Workflow.table setup).Unmarked := by
  unfold Workflow.table
  cases hg : given? setup with
  | none => rfl
  | some v => exact h v (Option.filter_eq_some_iff.mp hg).1

theorem Value.Unmarked.setups (h : doc.Unmarked) : (Workflow.setups doc).Unmarked :=
  Unmarked.table fun _ hv => h.part hv

/-- **No job and no step stands at a second place.** -/
theorem Workflow.standAlone_of_unmarked (h : doc.Unmarked) : Workflow.StandAlone doc where
  jobs id job hmem := (h.jobs (id, job) hmem).standsAlone
  steps id job hmem step hstep := ((h.jobs (id, job) hmem).steps step hstep).standsAlone

end StepLoom
