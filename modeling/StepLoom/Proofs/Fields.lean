import StepLoom.Value.Access
import Mathlib.Data.List.Basic
import Mathlib.Tactic.Common

/-!
# Fields of mappings

A text is only the same key as itself, so putting and erasing a field under a text leaves every
other field alone. `Fields.without` is what is left of a mapping apart from some keys, which is how
later files say that a step is the same up to a few of them.

A value is *unmarked* if no mapping in it stands at several places. Giving an unmarked mapping new
fields edits nothing else.
-/

namespace StepLoom

namespace Scalar

theorem sameKey_str {a b : String} : (str a).sameKey (str b) = decide (a = b) := by
  have h : (str a).sameKey (str b) = ((str a == str b) && true) := by
    rw [sameKey.eq_def]
    rfl
  rw [h, Bool.and_true, beq_eq_decide]
  simp

/-- The only key that a text is the same as is the text. -/
theorem sameKey_str_iff {a : String} {k : Scalar} : (str a).sameKey k = true ↔ k = str a := by
  constructor
  · intro h
    cases k with
    | str b =>
      rw [sameKey_str, decide_eq_true_eq] at h
      rw [h]
    | float x =>
      rw [sameKey.eq_def] at h
      cases hx : (float x).toInt? with
      | none => simp [hx, show (str a).toInt? = none from rfl] at h
      | some n => simp [hx, show (str a).toInt? = none from rfl] at h
    | _ =>
      rw [sameKey.eq_def] at h
      simp [toInt?] at h
  · rintro rfl
    rw [sameKey_str]
    simp

end Scalar

theorem Value.equal_str {a b : String} : (Value.str a).equal (.str b) = decide (a = b) :=
  Scalar.sameKey_str

namespace Fields

variable {a b : String} {v : Value} {fields : Fields}

theorem get?_cons {k : Scalar} : get? (.str a) ((k, v) :: fields) =
    if k = .str a then some v else get? (.str a) fields := by
  rw [get?]
  simp only [Scalar.sameKey_str_iff]

theorem put_cons {k : Scalar} {w : Value} : put (.str a) v ((k, w) :: fields) =
    if k = .str a then (k, v) :: fields else (k, w) :: put (.str a) v fields := by
  rw [put]
  simp only [Scalar.sameKey_str_iff]

theorem erase_cons {k : Scalar} : erase (.str a) ((k, v) :: fields) =
    if k = .str a then fields else (k, v) :: erase (.str a) fields := by
  rw [erase]
  simp only [Scalar.sameKey_str_iff]

@[simp] theorem get?_put_self : get? (.str a) (put (.str a) v fields) = some v := by
  induction fields with
  | nil => simp [put, get?_cons]
  | cons field rest ih =>
    obtain ⟨k, w⟩ := field
    rw [put_cons]
    split_ifs with h
    · rw [get?_cons, if_pos h]
    · rw [get?_cons, if_neg h, ih]

theorem get?_put_ne (h : a ≠ b) : get? (.str a) (put (.str b) v fields) = get? (.str a) fields := by
  have hne : ∀ {k : Scalar}, k = .str b → k ≠ .str a := fun hk hk' =>
    h (Scalar.str.inj (hk'.symm.trans hk))
  induction fields with
  | nil => rw [put, get?_cons, if_neg (hne rfl)]
  | cons field rest ih =>
    obtain ⟨k, w⟩ := field
    rw [put_cons, get?_cons]
    split_ifs with hk hk'
    · exact absurd hk' (hne hk)
    · rw [get?_cons, if_neg (hne hk)]
    · rw [get?_cons, if_pos ‹_›]
    · rw [get?_cons, if_neg ‹_›, ih]

theorem get?_erase_ne (h : a ≠ b) :
    get? (.str a) (erase (.str b) fields) = get? (.str a) fields := by
  induction fields with
  | nil => rfl
  | cons field rest ih =>
    obtain ⟨k, w⟩ := field
    rw [erase_cons, get?_cons]
    split_ifs with hk hk'
    · exact absurd (Scalar.str.inj (hk'.symm.trans hk)) h
    · rfl
    · rw [get?_cons, if_pos ‹_›]
    · rw [get?_cons, if_neg ‹_›, ih]

theorem erase_of_get?_none (h : get? (.str a) fields = none) : erase (.str a) fields = fields := by
  induction fields with
  | nil => rfl
  | cons field rest ih =>
    obtain ⟨k, w⟩ := field
    rw [get?_cons] at h
    rw [erase_cons]
    split_ifs at h ⊢
    rw [ih h]

theorem mem_of_get? {key : Scalar} (h : get? key fields = some v) : ∃ k, (k, v) ∈ fields := by
  induction fields with
  | nil => cases h
  | cons field rest ih =>
    rw [get?] at h
    split_ifs at h
    · cases h
      exact ⟨field.1, List.mem_cons_self⟩
    · obtain ⟨k, hk⟩ := ih h
      exact ⟨k, List.mem_cons_of_mem _ hk⟩

/-- The fields under all but some keys. -/
def without (keys : List String) (fields : Fields) : Fields :=
  fields.filter fun f => f.1 ∉ keys.map Scalar.str

theorem without_put {keys : List String} (h : a ∈ keys) :
    without keys (put (.str a) v fields) = without keys fields := by
  induction fields with
  | nil => simp [put, without, h]
  | cons field rest ih =>
    obtain ⟨k, w⟩ := field
    rw [put_cons]
    unfold without at ih ⊢
    split_ifs with hk
    · simp [hk, h]
    · rw [List.filter_cons, List.filter_cons, ih]

theorem without_erase {keys : List String} (h : a ∈ keys) :
    without keys (erase (.str a) fields) = without keys fields := by
  induction fields with
  | nil => rfl
  | cons field rest ih =>
    obtain ⟨k, w⟩ := field
    rw [erase_cons]
    unfold without at ih ⊢
    split_ifs with hk
    · simp [hk, h]
    · rw [List.filter_cons, List.filter_cons, ih]

/-- Equal apart from some keys, and so apart from more. -/
theorem without_mono {keys keys' : List String} (hsub : keys ⊆ keys') {fields' : Fields}
    (h : without keys fields = without keys fields') :
    without keys' fields = without keys' fields' := by
  have hw : ∀ fs : Fields, without keys' (without keys fs) = without keys' fs := by
    intro fs
    rw [without, without, List.filter_filter, without]
    refine List.filter_congr fun f _ => ?_
    rw [Bool.and_eq_left_iff_imp, decide_eq_true_eq, decide_eq_true_eq]
    exact fun hf hmem => hf (List.map_subset Scalar.str hsub hmem)
  rw [← hw, h, hw]

theorem get?_without {keys : List String} (h : a ∉ keys) :
    get? (.str a) (without keys fields) = get? (.str a) fields := by
  induction fields with
  | nil => rfl
  | cons field rest ih =>
    obtain ⟨k, w⟩ := field
    unfold without at ih ⊢
    rw [List.filter_cons, get?_cons]
    by_cases hk : k = .str a
    · rw [if_pos (by simp [hk, h]), get?_cons, if_pos hk, if_pos hk]
    · rw [if_neg hk, ← ih]
      split_ifs
      · rw [get?_cons, if_neg hk]
      · rfl

end Fields

/-! ## Mappings that differ in some keys -/

namespace Value

/-- What a mapping has under a key. -/
def part (key : Scalar) (v : Value) : Option Value := v.fields?.bind (Fields.get? key)

theorem fields?_of_isMap {v : Value} (h : v.isMap) : ∃ fields, v.fields? = some fields := by
  cases v with
  | map m fs => cases m <;> exact ⟨_, rfl⟩
  | _ => cases h

theorem part_of_field? {key : Scalar} {v : Value} {field : Option Value}
    (h : v.field? key = .ok field) : v.part key = field := by
  unfold field? at h
  split at h
  · next hv =>
    rw [part, hv]
    exact Except.ok.inj h
  · cases h

theorem fields?_of_fieldsOf {v : Value} {fields : Fields} (h : v.fieldsOf = .ok fields) :
    v.fields? = some fields := by
  unfold fieldsOf at h
  split at h
  · next hv => rw [hv, Except.ok.inj h]
  · cases h

theorem eq_str_of_string {v : Value} {s : String} (h : v.string = .ok s) : v = .str s := by
  unfold string at h
  split at h
  · exact congrArg str (Except.ok.inj h)
  · cases h

theorem fields?_of_spread {v : Value} {fields : Fields} (h : v.spread = .ok fields) :
    v.fields? = some fields := by
  unfold spread at h
  split at h
  · next hv => rw [hv, Except.ok.inj h]
  · cases h

/-- What is taken out of a mapping, and what is left. -/
theorem exists_fields_of_take {key : Scalar} {v : Value} {field : Option Value} {fields : Fields}
    (h : v.take key = .ok (field, fields)) : ∃ fs, v.fields? = some fs ∧
      field = Fields.get? key fs ∧ fields = Fields.erase key fs := by
  unfold take at h
  unfold fields?
  split at h
  · next m fs hun =>
    obtain ⟨rfl, rfl⟩ := Prod.mk.inj (Except.ok.inj h)
    exact ⟨fs, by rw [hun], rfl, rfl⟩
  all_goals cases h

theorem part_of_take {key : Scalar} {v : Value} {field : Option Value} {fields : Fields}
    (h : v.take key = .ok (field, fields)) : v.part key = field := by
  obtain ⟨fs, hfs, rfl, -⟩ := exists_fields_of_take h
  rw [part, hfs]
  rfl

theorem part_of_take_ne {a b : String} {v : Value} {field : Option Value} {fields : Fields}
    (h : v.take (.str b) = .ok (field, fields)) (hne : a ≠ b) :
    v.part (.str a) = Fields.get? (.str a) fields := by
  obtain ⟨fs, hfs, -, rfl⟩ := exists_fields_of_take h
  rw [part, hfs]
  exact (Fields.get?_erase_ne hne).symm

/-- A mapping that stands at one place only. -/
def IsRecord (v : Value) : Prop := ∃ fields, v = .record fields

/-- Two mappings with the same fields apart from some keys. -/
def Same (keys : List String) (v w : Value) : Prop :=
  ∃ fields fields', v = .record fields ∧ w = .record fields' ∧
    Fields.without keys fields = Fields.without keys fields'

theorem Same.refl {keys : List String} {v : Value} (h : v.IsRecord) : Same keys v v := by
  obtain ⟨fields, rfl⟩ := h
  exact ⟨fields, fields, rfl, rfl, rfl⟩

theorem Same.trans {keys : List String} {u v w : Value} (h : Same keys u v) (h' : Same keys v w) :
    Same keys u w := by
  obtain ⟨fu, fv, rfl, rfl, huv⟩ := h
  obtain ⟨fv', fw, hv, rfl, hvw⟩ := h'
  injection hv with _ hf
  subst hf
  exact ⟨fu, fw, rfl, rfl, huv.trans hvw⟩

theorem Same.mono {keys keys' : List String} (hsub : keys ⊆ keys') {v w : Value}
    (h : Same keys v w) : Same keys' v w := by
  obtain ⟨fv, fw, rfl, rfl, hvw⟩ := h
  exact ⟨fv, fw, rfl, rfl, Fields.without_mono hsub hvw⟩

theorem Same.isRecord {keys : List String} {v w : Value} (h : Same keys v w) : w.IsRecord := by
  obtain ⟨fv, fw, -, rfl, -⟩ := h
  exact ⟨fw, rfl⟩

/-- Other keys have the same values. -/
theorem Same.part {keys : List String} {v w : Value} (h : Same keys v w) {a : String}
    (ha : a ∉ keys) : w.part (.str a) = v.part (.str a) := by
  obtain ⟨fv, fw, rfl, rfl, hvw⟩ := h
  change Fields.get? (.str a) fw = Fields.get? (.str a) fv
  rw [← Fields.get?_without ha, ← hvw, Fields.get?_without ha]

/-! ## Values at one place -/

/-- No mapping in the value stands at several places, or in itself. -/
def Unmarked (v : Value) : Prop := v.marks = []

theorem Unmarked.list {items : List Value} (h : (Value.list items).Unmarked) :
    ∀ v ∈ items, v.Unmarked := by
  unfold Unmarked at h ⊢
  rw [marks] at h
  induction items with
  | nil => simp
  | cons v rest ih =>
    rw [marksOfItems, List.append_eq_nil_iff] at h
    intro w hw
    rcases List.mem_cons.mp hw with rfl | hw
    · exact h.1
    · exact ih h.2 w hw

/-- An unmarked mapping has its fields and nothing else. -/
theorem Unmarked.eq_record {v : Value} (h : v.Unmarked) {fields : Fields}
    (hv : v.fields? = some fields) : v = .record fields := by
  unfold fields? at hv
  cases v with
  | map m fs =>
    cases m with
    | none => simpa [unroll] using hv
    | some m => simp [Unmarked, marks] at h
  | ring m items => simp [Unmarked, marks] at h
  | _ => simp [unroll] at hv

theorem Unmarked.of_get? {fields : Fields} (h : (record fields).Unmarked) {key : Scalar}
    {v : Value} (hv : Fields.get? key fields = some v) : v.Unmarked := by
  unfold Unmarked at h ⊢
  rw [marks, Option.toList_none, List.nil_append] at h
  induction fields with
  | nil => cases hv
  | cons field rest ih =>
    obtain ⟨k, w⟩ := field
    rw [marksOfFields, List.append_eq_nil_iff] at h
    rw [Fields.get?] at hv
    split_ifs at hv
    · rw [← Option.some.inj hv]
      exact h.1
    · exact ih h.2 hv

theorem unmarked_ofKey : ∀ k : Scalar, (ofKey k).Unmarked
  | .pair a b => by
    rw [Unmarked, ofKey, marks, unmarked_ofKey a, unmarked_ofKey b]
    rfl
  | .null | .bool _ | .int _ | .float _ | .str _ | .date _ | .timestamp _ | .bytes _ => rfl

/-- Whatever an unmarked value lists is unmarked. -/
theorem Unmarked.members {v : Value} (h : v.Unmarked) {vs : List Value} (hv : v.members = .ok vs) :
    ∀ w ∈ vs, w.Unmarked := by
  unfold Value.members at hv
  cases v with
  | list items =>
    obtain rfl := Except.ok.inj hv
    exact h.list
  | pair a b =>
    obtain rfl := Except.ok.inj hv
    rw [Unmarked, marks, List.append_eq_nil_iff] at h
    simpa using ⟨h.1, h.2⟩
  | set members =>
    obtain rfl := Except.ok.inj hv
    intro w hw
    obtain ⟨k, -, rfl⟩ := List.mem_map.mp hw
    exact unmarked_ofKey k
  | map m fields =>
    cases m with
    | some m => simp [Unmarked, marks] at h
    | none =>
      obtain rfl := Except.ok.inj hv
      intro w hw
      obtain ⟨k, -, rfl⟩ := List.mem_map.mp hw
      exact unmarked_ofKey k.1
  | scalar s =>
    cases s with
    | str s =>
      obtain rfl := Except.ok.inj hv
      intro w hw
      obtain ⟨c, -, rfl⟩ := List.mem_map.mp hw
      rfl
    | bytes bs =>
      obtain rfl := Except.ok.inj hv
      intro w hw
      obtain ⟨c, -, rfl⟩ := List.mem_map.mp hw
      rfl
    | _ => simp [unroll] at hv
  | ring m items => simp [Unmarked, marks] at h
  | again m => simp [unroll] at hv

theorem applyAll_nil (v : Value) : v.applyAll [] = v := rfl

theorem applyAll_append (v : Value) (edits more : List Edit) :
    v.applyAll (edits ++ more) = (v.applyAll edits).applyAll more := List.foldl_append

theorem withFields_record (fields fields' : Fields) :
    (record fields).withFields fields' = (record fields', []) := rfl

/-- A value that is not blank lists something. -/
theorem members_ne_nil {v : Value} (h : v.isBlank = false) {vs : List Value}
    (hv : v.members = .ok vs) : vs ≠ [] := by
  unfold members at hv
  cases v with
  | list items =>
    obtain rfl := Except.ok.inj hv
    simpa [isBlank] using h
  | pair a b =>
    obtain rfl := Except.ok.inj hv
    simp
  | set members =>
    obtain rfl := Except.ok.inj hv
    simpa [isBlank] using h
  | map m fields =>
    have hne : fields ≠ [] := by simpa [isBlank] using h
    cases m with
    | none =>
      obtain rfl := Except.ok.inj hv
      simpa [Fields.keys] using hne
    | some m =>
      obtain rfl := Except.ok.inj hv
      obtain ⟨f, rest, rfl⟩ := List.exists_cons_of_ne_nil hne
      simp [Fields.keys, plugFields]
  | scalar s =>
    cases s with
    | str s =>
      obtain rfl := Except.ok.inj hv
      simpa [isBlank, Scalar.isBlank, characters] using h
    | bytes bs =>
      obtain rfl := Except.ok.inj hv
      simpa [isBlank, Scalar.isBlank] using h
    | _ => simp [unroll] at hv
  | ring m items =>
    have hne : items ≠ [] := by simpa [isBlank] using h
    obtain rfl := Except.ok.inj hv
    obtain ⟨x, rest, rfl⟩ := List.exists_cons_of_ne_nil hne
    simp [plugItems]
  | again m => simp [unroll] at hv

/-! ## What reading fails of -/

variable {v : Value} {e : Fault}

theorem members_error (h : v.members = .error e) : e = .illTyped := by
  unfold members at h
  split at h
  all_goals cases h
  rfl

theorem oneOrMany_error {field : Option Value} (h : oneOrMany field = .error e) :
    e = .illTyped := by
  unfold oneOrMany at h
  split at h
  · cases h
  · cases h
  · exact members_error h

theorem strings_error {vs : List Value} (h : strings vs = .error e) : e = .illTyped := by
  induction vs with
  | nil => cases h
  | cons v rest ih =>
    rw [strings] at h
    unfold string at h
    split at h
    · cases hrest : strings rest with
      | ok texts => rw [hrest] at h; cases h
      | error e' =>
        rw [hrest] at h
        obtain rfl := Except.error.inj h
        exact ih hrest
    · cases h
      rfl

theorem take_error {key : Scalar} (h : v.take key = .error e) : e = .illTyped ∨ e = .noMember := by
  unfold take at h
  split at h
  all_goals cases h
  · exact Or.inl rfl
  · exact Or.inl rfl
  · exact Or.inr rfl

end Value

end StepLoom
