import StepLoom.Proofs.Job
import StepLoom.Proofs.Marks

/-!
# Values in which no mark stands twice

Marks tell mappings apart. If no mark stands twice in a value, none of its mappings stands at two
places or in itself, and its parts have no mapping in common. The marks of what is read from such a
value are a sublist of its own.
-/

namespace StepLoom

namespace Value

variable {m : Nat} {v w whole : Value} {vs items : List Value} {fields : Fields} {key : Scalar}

theorem marksOfItems_eq (vs : List Value) : marksOfItems vs = vs.flatMap marks := by
  induction vs with
  | nil => rfl
  | cons v rest ih => rw [marksOfItems, ih, List.flatMap_cons]

theorem marksOfFields_eq (fields : Fields) : marksOfFields fields = fields.flatMap (·.2.marks) := by
  induction fields with
  | nil => rfl
  | cons f rest ih => rw [marksOfFields, ih, List.flatMap_cons]

theorem mem_marks_of_mark? (h : v.mark? = some m) : m ∈ v.marks := by
  cases v with
  | map n fs =>
    obtain rfl : n = some m := h
    simp [marks]
  | _ => cases h

/-! ## Parts -/

mutual

/-- Nothing is plugged into a value that does not refer to the mark. -/
theorem plug_of_not_mem : ∀ v : Value, m ∉ v.marks → plug m whole v = v
  | .scalar _, _ | .set _, _ => rfl
  | .list items, h => congrArg list (plugItems_of_not_mem items h)
  | .pair a b, h => by
    rw [marks, List.mem_append, not_or] at h
    rw [plug, plug_of_not_mem a h.1, plug_of_not_mem b h.2]
  | .map n fs, h => by
    rw [marks, List.mem_append, not_or, Option.mem_toList] at h
    rw [plug, if_neg h.1, plugFields_of_not_mem fs h.2]
  | .ring n items, h => by
    rw [marks, List.mem_cons, not_or] at h
    rw [plug, if_neg (Ne.symm h.1), plugItems_of_not_mem items h.2]
  | .again n, h => by
    rw [marks, List.mem_singleton] at h
    rw [plug, if_neg (Ne.symm h)]

theorem plugItems_of_not_mem : ∀ items : List Value, m ∉ marksOfItems items →
    plugItems m whole items = items
  | [], _ => rfl
  | v :: rest, h => by
    rw [marksOfItems, List.mem_append, not_or] at h
    rw [plugItems, plug_of_not_mem v h.1, plugItems_of_not_mem rest h.2]

theorem plugFields_of_not_mem : ∀ fs : List (Scalar × Value), m ∉ marksOfFields fs →
    plugFields m whole fs = fs
  | [], _ => rfl
  | (k, v) :: rest, h => by
    rw [marksOfFields, List.mem_append, not_or] at h
    rw [plugFields, plug_of_not_mem v h.1, plugFields_of_not_mem rest h.2]

end

theorem unroll_map (h : (map (some m) fields).marks.Nodup) :
    (map (some m) fields).unroll = map (some m) fields := by
  rw [unroll, plugFields_of_not_mem fields (List.nodup_cons.mp h).1]

theorem unroll_ring (h : (ring m items).marks.Nodup) : (ring m items).unroll = list items := by
  rw [unroll, plugItems_of_not_mem items (List.nodup_cons.mp h).1]

/-- The fields of a mapping are those that it is written with. -/
theorem eq_map_of_fields? (h : v.marks.Nodup) (hf : v.fields? = some fields) :
    ∃ mark, v = map mark fields := by
  unfold fields? at hf
  cases v with
  | map mark fs =>
    cases mark with
    | none =>
      obtain rfl := Option.some.inj hf
      exact ⟨none, rfl⟩
    | some m =>
      rw [unroll_map h] at hf
      obtain rfl := Option.some.inj hf
      exact ⟨some m, rfl⟩
  | _ => simp [unroll] at hf

theorem marks_get? (hv : Fields.get? key fields = some v) :
    v.marks.Sublist (marksOfFields fields) := by
  induction fields with
  | nil => cases hv
  | cons f rest ih =>
    rw [Fields.get?] at hv
    split_ifs at hv
    · rw [← Option.some.inj hv]
      exact List.sublist_append_left _ _
    · exact (ih hv).trans (List.sublist_append_right _ _)

/-- A field, and what is left of the mapping without it. -/
theorem perm_erase (hv : Fields.get? key fields = some v) :
    (v.marks ++ marksOfFields (Fields.erase key fields)).Perm (marksOfFields fields) := by
  induction fields with
  | nil => cases hv
  | cons f rest ih =>
    obtain ⟨k, w⟩ := f
    rw [Fields.get?] at hv
    rw [Fields.erase]
    split_ifs at hv ⊢
    · rw [← Option.some.inj hv]
      exact .refl _
    · rw [marksOfFields, marksOfFields]
      refine List.Perm.trans ?_ ((ih hv).append_left w.marks)
      rw [← List.append_assoc, ← List.append_assoc]
      exact List.perm_append_comm.append_right _

theorem marks_part (h : v.marks.Nodup) (hw : v.part key = some w) : w.marks.Sublist v.marks := by
  obtain ⟨fields, hfields, hget⟩ := Option.bind_eq_some_iff.mp hw
  obtain ⟨mark, rfl⟩ := eq_map_of_fields? h hfields
  exact (marks_get? hget).trans (List.sublist_append_right _ _)

/-! ## Members -/

theorem marksOfItems_ofKey {α : Type} (f : α → Scalar) (xs : List α) :
    marksOfItems (xs.map fun x => ofKey (f x)) = [] := by
  rw [marksOfItems_eq, List.flatMap_eq_nil_iff]
  exact List.forall_mem_map.mpr fun x _ => unmarked_ofKey (f x)

theorem marksOfItems_scalar {α : Type} (f : α → Scalar) (xs : List α) :
    marksOfItems (xs.map fun x => scalar (f x)) = [] := by
  rw [marksOfItems_eq, List.flatMap_eq_nil_iff]
  exact List.forall_mem_map.mpr fun x _ => rfl

theorem marks_members (h : v.marks.Nodup) (hm : v.members = .ok vs) :
    (marksOfItems vs).Sublist v.marks := by
  unfold members at hm
  cases v with
  | list items =>
    obtain rfl := Except.ok.inj hm
    exact .refl _
  | pair a b =>
    obtain rfl := Except.ok.inj hm
    simp [marks, marksOfItems]
  | set members =>
    obtain rfl := Except.ok.inj hm
    rw [marksOfItems_ofKey fun k => k]
    exact List.nil_sublist _
  | map mark fields =>
    obtain ⟨fs, hfs⟩ : ∃ fs : Fields, vs = Fields.keys fs := by
      cases mark <;> exact ⟨_, (Except.ok.inj hm).symm⟩
    rw [hfs, Fields.keys, marksOfItems_ofKey Prod.fst]
    exact List.nil_sublist _
  | scalar s =>
    cases s with
    | str s =>
      obtain rfl := Except.ok.inj hm
      rw [characters, marksOfItems_scalar fun c => .str (String.singleton c)]
      exact List.nil_sublist _
    | bytes bs =>
      obtain rfl := Except.ok.inj hm
      rw [marksOfItems_scalar fun b : UInt8 => .int b.toNat]
      exact List.nil_sublist _
    | _ => simp [unroll] at hm
  | ring m items =>
    rw [unroll_ring h] at hm
    obtain rfl := Except.ok.inj hm
    exact List.sublist_cons_self m _
  | again m => simp [unroll] at hm

theorem marks_membersOrNone {field : Option Value}
    (h : ∀ w, field = some w → w.marks.Nodup) (hm : membersOrNone field = .ok vs) :
    vs = [] ∨ ∃ w, field = some w ∧ (marksOfItems vs).Sublist w.marks := by
  unfold membersOrNone at hm
  cases hg : given? field with
  | none =>
    rw [hg] at hm
    exact Or.inl (Except.ok.inj hm).symm
  | some w =>
    rw [hg] at hm
    have hw := (Option.filter_eq_some_iff.mp hg).1
    exact Or.inr ⟨w, hw, marks_members (h w hw) hm⟩

/-- Items with different marks do not stand in each other. -/
theorem pairwise_avoids (h : (marksOfItems vs).Nodup) :
    vs.Pairwise fun v w => v.Avoids w ∧ w.Avoids v := by
  rw [marksOfItems_eq, List.nodup_flatMap] at h
  refine h.2.imp fun hdisjoint => ⟨fun m hm hmem => ?_, fun m hm hmem => ?_⟩
  · exact hdisjoint (mem_marks_of_mark? hm) hmem
  · exact hdisjoint hmem (mem_marks_of_mark? hm)

end Value

theorem Job.marks_steps {job : Value} (h : job.marks.Nodup) :
    (Value.marksOfItems (steps job)).Sublist job.marks := by
  unfold steps
  split
  · next heq =>
    have hpart : ∀ w, job.part "steps" = some w → w.marks.Sublist job.marks := fun w =>
      Value.marks_part h
    rcases Value.marks_membersOrNone (fun w hw => h.sublist (hpart w hw)) heq with
      rfl | ⟨w, hw, hsub⟩
    · exact List.nil_sublist _
    · exact hsub.trans (hpart w hw)
  · exact List.nil_sublist _

end StepLoom
