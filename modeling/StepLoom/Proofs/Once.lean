import StepLoom.Proofs.Fields
import StepLoom.Proofs.SideBySide

/-!
# Keys that stand once

Fields are a list, and nothing in their type keeps a key from standing in it twice. `Once` says that
none does. Then a key is gone when it is taken out (`Once.get?_erase`). Putting and taking out keep
each key once.
-/

namespace StepLoom

namespace Fields

variable {fields fs gs : Fields} {a : String} {key : Scalar} {v : Value}

/-- No key stands twice. -/
def Once (fields : Fields) : Prop := fields.Pairwise fun f g => g.1.sameKey f.1 = false

instance (fields : Fields) : Decidable (Once fields) :=
  inferInstanceAs (Decidable (List.Pairwise _ fields))

theorem once_nil : Once [] := .nil

theorem mem_put {f : Scalar × Value} (h : f ∈ put key v fields) :
    f.1 = key ∨ ∃ g ∈ fields, g.1 = f.1 := by
  induction fields with
  | nil => exact Or.inl (congrArg Prod.fst (List.mem_singleton.mp h))
  | cons g rest ih =>
    obtain ⟨k, w⟩ := g
    rw [put] at h
    split_ifs at h
    · rcases List.mem_cons.mp h with rfl | h
      · exact Or.inr ⟨(k, w), by simp, rfl⟩
      · exact Or.inr ⟨f, List.mem_cons_of_mem _ h, rfl⟩
    · rcases List.mem_cons.mp h with rfl | h
      · exact Or.inr ⟨(k, w), by simp, rfl⟩
      · refine (ih h).imp_right ?_
        rintro ⟨g, hg, heq⟩
        exact ⟨g, List.mem_cons_of_mem _ hg, heq⟩

theorem Once.put (h : Once fields) : Once (put key v fields) := by
  induction fields with
  | nil => exact List.pairwise_singleton _ _
  | cons g rest ih =>
    obtain ⟨k, w⟩ := g
    obtain ⟨hk, hrest⟩ := List.pairwise_cons.mp h
    rw [Fields.put]
    split_ifs with hsame
    · exact List.pairwise_cons.mpr ⟨hk, hrest⟩
    · refine List.pairwise_cons.mpr ⟨fun f hf => ?_, ih hrest⟩
      rcases mem_put hf with heq | ⟨g, hg, heq⟩
      · rw [heq]
        exact eq_false_of_ne_true hsame
      · rw [← heq]
        exact hk g hg

theorem Once.erase (h : Once fields) : Once (erase key fields) := by
  refine h.sublist ?_
  clear h
  induction fields with
  | nil => exact .refl _
  | cons g rest ih =>
    obtain ⟨k, w⟩ := g
    rw [Fields.erase]
    split_ifs
    · exact List.sublist_cons_self _ _
    · exact ih.cons_cons _

theorem Once.putAll (h : Once fs) : Once (putAll fs gs) := by
  induction gs generalizing fs with
  | nil => exact h
  | cons g rest ih => exact ih h.put

theorem Once.eraseAll (keys : List Scalar) (h : Once fields) :
    Once (keys.foldl (fun fs k => Fields.erase k fs) fields) := by
  induction keys generalizing fields with
  | nil => exact h
  | cons k rest ih => exact ih h.erase

/-- A key that does not stand in the fields goes to the end. -/
theorem put_of_ne (h : ∀ f ∈ fields, key.sameKey f.1 = false) :
    put key v fields = fields ++ [(key, v)] := by
  induction fields with
  | nil => rfl
  | cons f rest ih =>
    obtain ⟨hf, hrest⟩ := List.forall_mem_cons.mp h
    rw [put, hf, if_neg Bool.false_ne_true, ih hrest, List.cons_append]

theorem putAll_of_once (h : Once (fs ++ gs)) : putAll fs gs = fs ++ gs := by
  induction gs generalizing fs with
  | nil => exact (List.append_nil fs).symm
  | cons g rest ih =>
    obtain ⟨k, w⟩ := g
    have hnew : ∀ f ∈ fs, k.sameKey f.1 = false := by
      intro f hf
      exact (List.pairwise_append.mp h).2.2 f hf (k, w) (List.mem_cons_self ..)
    have hput : putAll fs ((k, w) :: rest) = putAll (put k w fs) rest := rfl
    rw [hput, put_of_ne hnew, ih (by simpa using h), List.append_assoc, List.singleton_append]

/-- Pairs with each key once are fields. -/
theorem Once.ofPairs (h : Once fields) : ofPairs fields = fields := putAll_of_once h

/-! ## What is taken out -/

theorem get?_of_ne (h : ∀ f ∈ fields, f.1 ≠ .str a) : get? (.str a) fields = none := by
  induction fields with
  | nil => rfl
  | cons f rest ih =>
    obtain ⟨hf, hrest⟩ := List.forall_mem_cons.mp h
    rw [get?_cons, if_neg hf]
    exact ih hrest

/-- What stands under a key that stands once is what is read. -/
theorem Once.get?_of_mem (h : Once fields) (hv : (.str a, v) ∈ fields) :
    get? (.str a) fields = some v := by
  induction fields with
  | nil => cases hv
  | cons g rest ih =>
    obtain ⟨hk, hrest⟩ := List.pairwise_cons.mp h
    obtain ⟨k, w⟩ := g
    rcases List.mem_cons.mp hv with heq | hmem
    · obtain ⟨rfl, rfl⟩ := Prod.mk.inj heq
      rw [get?_cons, if_pos rfl]
    · have hne := hk _ hmem
      rw [get?_cons, if_neg fun heq => ?_, ih hrest hmem]
      rw [heq, Scalar.sameKey_str_iff.mpr rfl] at hne
      cases hne

/-- What is taken out is gone. -/
theorem Once.get?_erase (h : Once fields) :
    get? (.str a) (Fields.erase (.str a) fields) = none := by
  induction fields with
  | nil => rfl
  | cons g rest ih =>
    obtain ⟨k, w⟩ := g
    obtain ⟨hk, hrest⟩ := List.pairwise_cons.mp h
    rw [erase_cons]
    split_ifs with hkey
    · refine get?_of_ne fun f hf heq => ?_
      have hne := hk f hf
      rw [hkey, heq, Scalar.sameKey_str_iff.mpr rfl] at hne
      cases hne
    · rw [get?_cons, if_neg hkey]
      exact ih hrest

theorem get?_eraseAll_of_none {keys : List String} (h : get? (.str a) fields = none) :
    get? (.str a) ((keys.map .str).foldl (fun fs k => Fields.erase k fs) fields) = none := by
  induction keys generalizing fields with
  | nil => exact h
  | cons b rest ih =>
    rw [List.map_cons, List.foldl_cons]
    apply ih
    by_cases hab : a = b
    · rw [← hab, erase_of_get?_none h, h]
    · rw [get?_erase_ne hab, h]

theorem Once.get?_eraseAll {keys : List String} (h : Once fields) (ha : a ∈ keys) :
    get? (.str a) ((keys.map .str).foldl (fun fs k => Fields.erase k fs) fields) = none := by
  induction keys generalizing fields with
  | nil => cases ha
  | cons b rest ih =>
    rw [List.map_cons, List.foldl_cons]
    rcases List.mem_cons.mp ha with rfl | ha
    · exact get?_eraseAll_of_none h.get?_erase
    · exact ih h.erase ha

end Fields

/-- No key stands twice in the mapping. -/
def Value.HoldsOnce (v : Value) : Prop := ∀ fields, v.fields? = some fields → Fields.Once fields

namespace Value

variable {v : Value} {fields : Fields}

theorem holdsOnce_record : (record fields).HoldsOnce ↔ Fields.Once fields :=
  ⟨fun h => h fields rfl, fun h _ hfs => Option.some.inj hfs ▸ h⟩

theorem holdsOnce_texts (fields : List (String × String)) (h : (fields.map Prod.fst).Nodup) :
    (record (fields.map fun (k, s) => (.str k, .str s))).HoldsOnce := by
  refine holdsOnce_record.mpr (List.pairwise_map.mpr ?_)
  refine (List.pairwise_map.mp h).imp fun hne => ?_
  rw [Scalar.sameKey_str, decide_eq_false_iff_not]
  exact Ne.symm hne

theorem get?_texts (fields : List (String × String)) {a : String} (h : a ∉ fields.map Prod.fst) :
    Fields.get? (.str a) (fields.map fun (k, s) => (.str k, .str s)) = none := by
  refine Fields.get?_of_ne (List.forall_mem_map.mpr fun f hf heq => h ?_)
  exact Scalar.str.inj heq ▸ List.mem_map_of_mem hf

theorem HoldsOnce.spread (h : v.HoldsOnce) (hs : v.spread = .ok fields) :
    Fields.Once fields := h fields (fields?_of_spread hs)

theorem HoldsOnce.asFields (h : v.HoldsOnce) (hs : v.asFields = .ok fields) :
    Fields.Once fields := by
  unfold Value.asFields at hs
  split at hs
  · next hfs => exact h fields (hfs.trans (congrArg some (Except.ok.inj hs)))
  · obtain ⟨members, -, hs⟩ := bind_eq_ok.mp hs
    obtain ⟨pairs, -, hs⟩ := bind_eq_ok.mp hs
    rw [← Except.ok.inj hs]
    exact Fields.once_nil.putAll

end Value

end StepLoom
