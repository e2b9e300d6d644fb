import StepLoom.Proofs.Apart
import StepLoom.Proofs.Check
import StepLoom.Proofs.Compile.Noting
import StepLoom.Proofs.Graph.Steps

/-!
# Jobs that share nothing

A job is *separate* if none of its mappings stands at a second place, neither in the job nor in the
table of setups. What the graph of such a job holds is known: steps hold mappings of the job, setups
what the table has, path checks the pattern lists of the steps.

**Theorem (`Separate.noted_compile`).** Compiling a separate job edits mappings of the job only.
-/

namespace StepLoom

open StepLoom.Graph

namespace Job

/-- No mapping of the job stands in the table, or at two places of the job. -/
structure Separate (table job : Value) : Prop where
  nodup : job.marks.Nodup
  outside : ∀ m ∈ job.marks, m ∉ table.marks

/-- The sorted pattern lists of a job's steps. -/
def patternLists (job : Value) : List (List String) :=
  ((steps job).map fun step => Check.sortTexts (Step.patterns step)).filter (· ≠ [])

/-- The marks of the job and of the table. -/
def Around (table job : Value) (m : Nat) : Prop := m ∈ job.marks ∨ m ∈ table.marks

/-- What the nodes of the job's graph hold. -/
abbrev Holding (table job : Value) : String → Kind → Value → Prop :=
  NodeHeld (Around table job) (· ∈ job.marks) (· ∈ patternLists job)

end Job

open Job

variable {table job step : Value} {paths : Option Value} {fields : Fields} {i : Nat}

theorem NodeHeld.applyAll {A M : Nat → Prop} {L : List String → Prop} {x : String} {k : Kind}
    {v : Value} {edits : List Edit} (h : NodeHeld A M L x k v) (he : Value.EditsWithin A edits) :
    NodeHeld A M L x k (v.applyAll edits) where
  within := h.within.applyAll he
  step hk := ⟨(h.step hk).1, fun m hm => (h.step hk).2 m (Value.mark?_applyAll ▸ hm)⟩
  setup := h.setup
  paths hk := by
    obtain ⟨hcheck, ps, hps, rfl⟩ := h.paths hk
    refine ⟨hcheck, ps, hps, Value.applyAll_of_not_mem fun e _ => ?_⟩
    rw [Value.marks, Value.marksOfItems_scalar]
    exact List.not_mem_nil

/-- The table serves all names. -/
theorem Job.serves (table job : Value) : Serves (Holding table job) (fun _ => True) table where
  holds _ _ hfound :=
    { within := (Setup.within_find? (Value.within_marks table) hfound).mono fun _ => Or.inr
      step := nofun
      setup := fun _ => ⟨_, rfl⟩
      paths := nofun }
  needs _ _ _ _ _ _ := trivial

namespace Job.Separate

variable (h : Separate table job)

include h

theorem mem_of_mark? {m : Nat} {v : Value} (hv : v ∈ job :: steps job) (hm : v.mark? = some m) :
    m ∈ job.marks := by
  have hmem := Value.mem_marks_of_mark? hm
  rcases List.mem_cons.mp hv with rfl | hv
  · exact hmem
  · exact within_of_mem_steps hv m hmem

theorem admits (hi : (steps job)[i]? = some step)
    (htake : step.take "paths" = .ok (paths, fields)) :
    Admits (· ∈ job.marks) (Holding table job) (fun _ => True) table i step paths fields := by
  have hmem := List.mem_of_getElem? hi
  have hmark : ∀ {m}, step.mark? = some m → m ∈ job.marks :=
    h.mem_of_mark? (List.mem_cons_of_mem job hmem)
  have hstep : step.Within (Around table job) := fun m hm => Or.inl (within_of_mem_steps hmem m hm)
  have hfields := (hstep.take htake).2
  refine ⟨fun m => hmark, fun k v hv => ?_, ?_, fun p rest texts hvs htexts => ?_,
    fun _ _ _ _ => trivial, ?_, fun fs hfs x k v hv => ?_⟩
  · cases k with
    | step => rfl
    | setup =>
      obtain ⟨s, hs⟩ := hv.setup rfl
      exact absurd hs.symm setupId_ne_stepId
    | paths => exact absurd (hv.paths rfl).1 not_isCheck_stepId
  · refine ⟨(hstep.withFields (hfields.eraseAll _)).1, fun _ => ⟨⟨i, rfl⟩, fun m hm => ?_⟩,
      nofun, nofun⟩
    exact hmark (Value.mark?_withFields ▸ hm)
  · have hpatterns := patterns_of_take htake hvs htexts
    have hne : texts ≠ [] := by
      rintro rfl
      cases eq_map_of_strings htexts
    refine ⟨Value.within_list.mpr ?_, nofun, nofun, fun _ => ⟨⟨_, rfl⟩, _, ?_, rfl⟩⟩
    · exact List.forall_mem_map.mpr fun _ _ => Value.within_scalar _
    · refine List.mem_filter.mpr ⟨List.mem_map.mpr ⟨step, hmem, by rw [hpatterns]⟩, ?_⟩
      simpa [Check.sortTexts_eq_nil] using hne
  · rw [Value.applyAll_of_not_mem fun e he => h.outside _ (hmark (Value.mark_of_withFields he))]
    exact serves table job
  · refine hv.applyAll (hstep.withFields ?_).2
    rcases List.mem_cons.mp hfs with rfl | hfs
    · exact hfields.erase
    · obtain rfl := List.mem_singleton.mp hfs
      exact hfields.eraseAll _

theorem jobAdmits : JobAdmits (· ∈ job.marks) (Holding table job) (fun _ => True) table job where
  marked _ := h.mem_of_mark? (by simp)
  steps _ _ hi _ _ htake := h.admits hi htake
  apart := Value.pairwise_avoids (h.nodup.sublist (marks_steps h.nodup))
  outside _ hv _ hm := h.outside _ (h.mem_of_mark? hv hm)
  setups _ _ _ _ _ _ _ _ := trivial
  serves := serves table job
  edits fs hfs x k v hv := by
    have hjob : job.Within (Around table job) := fun _ => Or.inl
    exact hv.applyAll (hjob.withFields fun f hf => (hfs f hf).mono fun _ => Or.inl).2

/-- **Compiling a separate job edits mappings of the job only**, and brings in no others than those
of the job and of the table. -/
theorem noted_compile : Noted (· ∈ job.marks) (fun _ => True)
    (fun a _ => (a.1.Within (Around table job) ∧
      EditsHeld (Around table job) (· ∈ job.marks) a.2) ∧ True)
    (Job.compile table job) (Noting.compile table job) :=
  StepLoom.noted_compile h.jobAdmits (fun _ => Or.inl) fun _ hv _ => h.mem_of_mark? hv

end Job.Separate

end StepLoom
