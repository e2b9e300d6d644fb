import StepLoom.Proofs.Apart

/-!
# Edits that change nothing

A mapping that is given the fields that it has stays as it is. If it stands at several places, this
is an edit all the same, and the other places stay as they are if they have the same fields. A value
is *coherent* if all places of a mapping have the same fields.

`Opens` says of a mapping what compiling needs when it writes the mapping back unchanged: its fields
can be read, giving it these fields yields the mapping, and neither this edit nor others of its kind
change it. In a coherent value it holds of every mapping that is no part of itself (`opens_of_mem`).
-/

namespace StepLoom

namespace Value

variable {own : Edit → Prop} {m : Nat} {mark : Option Nat} {v w : Value} {vs : List Value}
  {fields : Fields} {edits : List Edit} {key : Scalar} {a : String}

/-! ## Places -/

mutual

/-- The marked mappings in a value, each with the fields that it has there. -/
def places : Value → List Edit
  | .scalar _ => []
  | .list items => placesOfItems items
  | .pair a b => a.places ++ b.places
  | .set _ => []
  | .map m fields => m.toList.map (⟨·, fields⟩) ++ placesOfFields fields
  | .ring _ items => placesOfItems items
  | .again _ => []

def placesOfItems : List Value → List Edit
  | [] => []
  | v :: rest => v.places ++ placesOfItems rest

def placesOfFields : List (Scalar × Value) → List Edit
  | [] => []
  | (_, v) :: rest => v.places ++ placesOfFields rest

end

/-- All places of a mapping have the same fields. -/
def Coherent (v : Value) : Prop :=
  ∀ p ∈ v.places, ∀ q ∈ v.places, p.mark = q.mark → p.fields = q.fields

mutual

/-- **An edit changes nothing** if the mapping has the fields already. -/
theorem assign_of_places : ∀ v : Value, (∀ p ∈ v.places, p.mark = m → p.fields = fields) →
    v.assign m fields = v
  | .scalar _, _ | .set _, _ | .again _, _ => rfl
  | .list items, h => congrArg list (assignItems_of_places items h)
  | .pair a b, h => by
    rw [places, List.forall_mem_append] at h
    rw [assign, assign_of_places a h.1, assign_of_places b h.2]
  | .map n fs, h => by
    rw [places, List.forall_mem_append] at h
    rw [assign, assignFields_of_places fs h.2]
    split_ifs with hn
    · have hfs : fs = fields := h.1 ⟨m, fs⟩ (by simp [hn]) rfl
      rw [hfs]
    · rfl
  | .ring n items, h => by
    rw [places] at h
    rw [assign, assignItems_of_places items h]

theorem assignItems_of_places : ∀ items : List Value,
    (∀ p ∈ placesOfItems items, p.mark = m → p.fields = fields) →
    assignItems m fields items = items
  | [], _ => rfl
  | v :: rest, h => by
    rw [placesOfItems, List.forall_mem_append] at h
    rw [assignItems, assign_of_places v h.1, assignItems_of_places rest h.2]

theorem assignFields_of_places : ∀ fs : List (Scalar × Value),
    (∀ p ∈ placesOfFields fs, p.mark = m → p.fields = fields) → assignFields m fields fs = fs
  | [], _ => rfl
  | (k, v) :: rest, h => by
    rw [placesOfFields, List.forall_mem_append] at h
    rw [assignFields, assign_of_places v h.1, assignFields_of_places rest h.2]

end

theorem places_sub_of_mem_list (h : v ∈ vs) : v.places ⊆ (list vs).places := by
  change v.places ⊆ placesOfItems vs
  induction vs with
  | nil => cases h
  | cons w rest ih =>
    rw [placesOfItems]
    rcases List.mem_cons.mp h with rfl | h
    · exact List.subset_append_left _ _
    · exact List.Subset.trans (ih h) (List.subset_append_right _ _)

theorem places_sub_of_mem_map {f : Scalar × Value} (h : f ∈ fields) :
    f.2.places ⊆ (map mark fields).places := by
  suffices hsub : f.2.places ⊆ placesOfFields fields from
    List.Subset.trans hsub (List.subset_append_right _ _)
  induction fields with
  | nil => cases h
  | cons g rest ih =>
    rw [placesOfFields]
    rcases List.mem_cons.mp h with rfl | h
    · exact List.subset_append_left _ _
    · exact List.Subset.trans (ih h) (List.subset_append_right _ _)

theorem places_sub_of_get? (h : Fields.get? key fields = some v) :
    v.places ⊆ (map mark fields).places := by
  obtain ⟨k, hk⟩ := Fields.mem_of_get? h
  exact places_sub_of_mem_map hk

mutual

theorem tie_of_not_mem : ∀ v : Value, m ∉ v.marks → tie m v = v
  | .scalar _, _ | .set _, _ | .again _, _ => rfl
  | .list items, h => congrArg list (tieItems_of_not_mem items h)
  | .pair a b, h => by
    rw [marks, List.mem_append, not_or] at h
    rw [tie, tie_of_not_mem a h.1, tie_of_not_mem b h.2]
  | .map n fs, h => by
    rw [marks, List.mem_append, not_or, Option.mem_toList] at h
    rw [tie, if_neg h.1, tieFields_of_not_mem fs h.2]
  | .ring n items, h => by
    rw [marks, List.mem_cons, not_or] at h
    rw [tie, tieItems_of_not_mem items h.2]

theorem tieItems_of_not_mem :
    ∀ items : List Value, m ∉ marksOfItems items → tieItems m items = items
  | [], _ => rfl
  | v :: rest, h => by
    rw [marksOfItems, List.mem_append, not_or] at h
    rw [tieItems, tie_of_not_mem v h.1, tieItems_of_not_mem rest h.2]

theorem tieFields_of_not_mem : ∀ fs : List (Scalar × Value), m ∉ marksOfFields fs →
    tieFields m fs = fs
  | [], _ => rfl
  | (k, v) :: rest, h => by
    rw [marksOfFields, List.mem_append, not_or] at h
    rw [tieFields, tie_of_not_mem v h.1, tieFields_of_not_mem rest h.2]

end

/-! ## Mappings that are written back -/

/-- The edits of some kind leave the value as it is. -/
def Stays (own : Edit → Prop) (v : Value) : Prop := ∀ e, own e → v.assign e.mark e.fields = v

/-- The value is a mapping with the fields, and writing them back leaves it as it is. -/
structure Opens (own : Edit → Prop) (v : Value) (fields : Fields) : Prop where
  reads : v.fields? = some fields
  itself : (v.withFields fields).1 = v
  edits : ∀ e ∈ (v.withFields fields).2, own e
  stays : v.Stays own

theorem Stays.applyAll (h : v.Stays own) (he : ∀ e ∈ edits, own e) : v.applyAll edits = v := by
  induction edits with
  | nil => rfl
  | cons e rest ih =>
    obtain ⟨hown, hrest⟩ := List.forall_mem_cons.mp he
    change (v.assign e.mark e.fields).applyAll rest = v
    rw [h e hown, ih hrest]

theorem Opens.part (h : Opens own v fields) : v.part key = Fields.get? key fields := by
  rw [Value.part, h.reads]
  rfl

theorem Opens.fieldsOf (h : Opens own v fields) : v.fieldsOf = .ok fields := by
  rw [Value.fieldsOf, h.reads]

theorem Opens.field? (h : Opens own v fields) : v.field? key = .ok (Fields.get? key fields) := by
  rw [Value.field?, h.reads]

/-- Taking out a key that is not there. -/
theorem Opens.take (h : Opens own v fields) (hkey : Fields.get? (.str a) fields = none) :
    v.take (.str a) = .ok (none, fields) := by
  have hfields := h.reads
  unfold Value.fields? at hfields
  unfold Value.take
  split at hfields
  · next heq =>
    obtain rfl := Option.some.inj hfields
    rw [heq]
    dsimp only
    rw [hkey, Fields.erase_of_get?_none hkey]
  · cases hfields

/-- A mapping that stands at one place makes no edits. -/
theorem opens_record (h : (record fields).Stays own) : Opens own (record fields) fields :=
  ⟨rfl, rfl, by simp [withFields], h⟩

/-- A mapping that is no part of itself. -/
def IsOuter (v : Value) (fields : Fields) : Prop :=
  ∃ mark, v = .map mark fields ∧ ∀ m, mark = some m → m ∉ marksOfFields fields

/-- **In a coherent value** every mapping can be written back that is no part of itself. -/
theorem opens_of_mem (hw : w.Coherent) (hsub : v.places ⊆ w.places) (h : v.IsOuter fields) :
    Opens (· ∈ w.places) v fields := by
  obtain ⟨mark, rfl, hout⟩ := h
  have hstays : (map mark fields).Stays (· ∈ w.places) := fun e he =>
    assign_of_places _ fun p hp hmark => hw p (hsub hp) e he hmark
  cases mark with
  | none => exact opens_record hstays
  | some m =>
    have hnot := hout m rfl
    have hwith : (map (some m) fields).withFields fields =
        (map (some m) fields, [⟨m, fields⟩]) := by
      rw [withFields, tieFields_of_not_mem fields hnot]
    refine ⟨?_, by rw [hwith], ?_, hstays⟩
    · rw [fields?, unroll, plugFields_of_not_mem fields hnot]
    · rw [hwith]
      exact List.forall_mem_singleton.mpr (hsub (by simp [places]))

/-! ## Fields that are put back -/

theorem assignFields_put {fs : Fields} : assignFields m fs (Fields.put key v fields) =
    Fields.put key (v.assign m fs) (assignFields m fs fields) := by
  induction fields with
  | nil => rfl
  | cons f rest ih =>
    obtain ⟨k, w⟩ := f
    rw [assignFields, Fields.put, Fields.put]
    split_ifs
    · rfl
    · rw [assignFields, ih]

theorem Stays.put (h : (record fields).Stays own) (hv : v.Stays own) :
    (record (Fields.put key v fields)).Stays own := by
  intro e he
  have hfields : assignFields e.mark e.fields fields = fields := by
    have h := h e he
    rw [assign, if_neg (by simp)] at h
    injection h
  rw [assign, if_neg (by simp), assignFields_put, hv e he, hfields]

end Value

/-- A field that has its value already. -/
theorem Fields.put_of_get? {a : String} {v : Value} {fields : Fields}
    (h : Fields.get? (.str a) fields = some v) : Fields.put (.str a) v fields = fields := by
  induction fields with
  | nil => cases h
  | cons f rest ih =>
    obtain ⟨k, w⟩ := f
    rw [Fields.get?_cons] at h
    rw [Fields.put_cons]
    split_ifs at h ⊢
    · rw [Option.some.inj h]
    · rw [ih h]

end StepLoom
