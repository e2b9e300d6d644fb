import StepLoom.Compile.Workflow
import StepLoom.Proofs.Marks

/-!
# Edits of mappings that stand in one another

A mapping may stand in another one that is edited too, and in itself. Where it stands in itself
there is a reference, which is read as the whole mapping (`Value.unroll`), and new fields are
written with references again (`Value.withFields`). Nothing is lost on this way.

**Theorems (`fields?_withFields`, `fields?_applyAll`).** After an edit, a mapping has the fields
that it was given, and every other mapping those that it had, with the edit made in their values.

This holds if references to a mark only stand inside the mapping that has it. Then the mark is
*closed* in the value, and all that reads and edits keep it so.
-/

namespace StepLoom

namespace Fields

variable {fields : Fields} {edits es : List Edit} {key : Scalar} {v : Value}

theorem applyAll_nil : fields.applyAll [] = fields := List.map_id fields

theorem applyAll_append : fields.applyAll (edits ++ es) = (fields.applyAll edits).applyAll es := by
  simp [applyAll, Value.applyAll]

theorem get?_applyAll :
    get? key (fields.applyAll edits) = (get? key fields).map (Value.applyAll edits) := by
  induction fields with
  | nil => rfl
  | cons f rest ih =>
    change (if key.sameKey f.1 then _ else get? key (applyAll edits rest)) = _
    rw [ih, get?]
    split_ifs <;> rfl

theorem put_applyAll :
    put key (v.applyAll edits) (fields.applyAll edits) = (put key v fields).applyAll edits := by
  induction fields with
  | nil => rfl
  | cons f rest ih =>
    change (if key.sameKey f.1 then _ else _ :: put key _ (applyAll edits rest)) = _
    rw [ih, put]
    split_ifs <;> rfl

theorem erase_applyAll :
    erase key (fields.applyAll edits) = (erase key fields).applyAll edits := by
  induction fields with
  | nil => rfl
  | cons f rest ih =>
    change (if key.sameKey f.1 then _ else _ :: erase key (applyAll edits rest)) = _
    rw [ih, erase]
    split_ifs <;> rfl

theorem without_applyAll {keys : List String} :
    without keys (fields.applyAll edits) = (without keys fields).applyAll edits := by
  rw [without, applyAll, List.filter_map]
  rfl

end Fields

namespace Value

variable {m n : Nat} {u v w : Value} {fields fs : Fields} {edits : List Edit}

@[simp] theorem applyAll_scalar (s : Scalar) : (scalar s).applyAll edits = .scalar s := by
  induction edits with
  | nil => rfl
  | cons e rest ih => exact ih

theorem assignFields_eq : assignFields m fields fs = Fields.applyAll [⟨m, fields⟩] fs := by
  induction fs with
  | nil => rfl
  | cons f rest ih =>
    rw [assignFields, ih]
    rfl

/-! ## References -/

mutual

/-- References to the mark only stand inside the mapping that has it, unless the value itself stands
inside it, and no list has the mark. -/
def closed (m : Nat) : (inside : Bool) → Value → Bool
  | _, .scalar _ => true
  | inside, .list items => closedItems m inside items
  | inside, .pair a b => closed m inside a && closed m inside b
  | _, .set _ => true
  | inside, .map n fields => closedFields m (inside || decide (n = some m)) fields
  | inside, .ring n items => decide (n ≠ m) && closedItems m inside items
  | inside, .again n => decide (n ≠ m) || inside

def closedItems (m : Nat) : (inside : Bool) → List Value → Bool
  | _, [] => true
  | inside, v :: rest => closed m inside v && closedItems m inside rest

def closedFields (m : Nat) : (inside : Bool) → List (Scalar × Value) → Bool
  | _, [] => true
  | inside, (_, v) :: rest => closed m inside v && closedFields m inside rest

end

theorem closedFields_iff {i : Bool} :
    closedFields m i fields ↔ ∀ f ∈ fields, f.2.closed m i := by
  induction fields with
  | nil => simp [closedFields]
  | cons f rest ih => simp [closedFields, ih]

mutual

theorem closed_mono : ∀ (v : Value) {i j : Bool}, (i → j) → closed m i v → closed m j v
  | .scalar _, _, _, _, h | .set _, _, _, _, h => h
  | .list items, _, _, hij, h => closedItems_mono items hij h
  | .pair a b, _, _, hij, h => by
    rw [closed, Bool.and_eq_true] at h ⊢
    exact ⟨closed_mono a hij h.1, closed_mono b hij h.2⟩
  | .map _ fields, _, _, hij, h => by
    refine closedFields_mono fields (fun hi => ?_) h
    rw [Bool.or_eq_true] at hi ⊢
    exact hi.imp_left hij
  | .ring _ items, _, _, hij, h => by
    rw [closed, Bool.and_eq_true] at h ⊢
    exact ⟨h.1, closedItems_mono items hij h.2⟩
  | .again _, _, _, hij, h => by
    rw [closed, Bool.or_eq_true] at h ⊢
    exact h.imp_right hij

theorem closedItems_mono : ∀ (items : List Value) {i j : Bool}, (i → j) →
    closedItems m i items → closedItems m j items
  | [], _, _, _, h => h
  | v :: rest, _, _, hij, h => by
    rw [closedItems, Bool.and_eq_true] at h ⊢
    exact ⟨closed_mono v hij h.1, closedItems_mono rest hij h.2⟩

theorem closedFields_mono : ∀ (fields : List (Scalar × Value)) {i j : Bool}, (i → j) →
    closedFields m i fields → closedFields m j fields
  | [], _, _, _, h => h
  | (_, v) :: rest, _, _, hij, h => by
    rw [closedFields, Bool.and_eq_true] at h ⊢
    exact ⟨closed_mono v hij h.1, closedFields_mono rest hij h.2⟩

end

/-- What is closed on its own is closed wherever it stands. -/
theorem closed_anywhere {i : Bool} (h : v.closed m false) : v.closed m i :=
  closed_mono v (fun hi => absurd hi Bool.false_ne_true) h

mutual

/-- Taking a reference for the whole leaves no reference behind. -/
theorem closed_plug (hw : w.closed m false) : ∀ (v : Value) {i : Bool},
    closed m (i || decide (n = m)) v → closed m i (plug n w v)
  | .scalar _, _, h | .set _, _, h => h
  | .list items, _, h => closedItems_plug hw items h
  | .pair a b, _, h => by
    rw [closed, Bool.and_eq_true] at h
    rw [plug, closed, Bool.and_eq_true]
    exact ⟨closed_plug hw a h.1, closed_plug hw b h.2⟩
  | .map k fields, i, h => by
    rw [closed] at h
    rw [plug]
    split_ifs with hk
    · subst hk
      simpa [closed] using h
    · refine closedFields_plug hw fields (closedFields_mono fields (fun hi => ?_) h)
      rwa [Bool.or_right_comm]
  | .ring k items, i, h => by
    rw [closed, Bool.and_eq_true, decide_eq_true_eq] at h
    rw [plug]
    split_ifs with hk
    · have hn : decide (n = m) = false := by simpa [hk] using h.1
      rw [hn, Bool.or_false] at h
      rw [closed, Bool.and_eq_true, decide_eq_true_eq]
      exact h
    · rw [closed, Bool.and_eq_true, decide_eq_true_eq]
      exact ⟨h.1, closedItems_plug hw items h.2⟩
  | .again k, i, h => by
    rw [plug]
    split_ifs with hk
    · exact closed_anywhere hw
    · simp only [closed, Bool.or_eq_true, decide_eq_true_eq] at h ⊢
      rcases h with h | h | h
      · exact Or.inl h
      · exact Or.inr h
      · exact Or.inl (h ▸ hk)

theorem closedItems_plug (hw : w.closed m false) : ∀ (items : List Value) {i : Bool},
    closedItems m (i || decide (n = m)) items → closedItems m i (plugItems n w items)
  | [], _, h => h
  | v :: rest, _, h => by
    rw [closedItems, Bool.and_eq_true] at h
    rw [plugItems, closedItems, Bool.and_eq_true]
    exact ⟨closed_plug hw v h.1, closedItems_plug hw rest h.2⟩

theorem closedFields_plug (hw : w.closed m false) : ∀ (fields : List (Scalar × Value)) {i : Bool},
    closedFields m (i || decide (n = m)) fields → closedFields m i (plugFields n w fields)
  | [], _, h => h
  | (_, v) :: rest, _, h => by
    rw [closedFields, Bool.and_eq_true] at h
    rw [plugFields, closedFields, Bool.and_eq_true]
    exact ⟨closed_plug hw v h.1, closedFields_plug hw rest h.2⟩

end

mutual

/-- A reference in place of a mapping needs to stand inside it. -/
theorem closed_tie : ∀ (v : Value) {i : Bool}, closed m i v →
    closed m (i || decide (n = m)) (tie n v)
  | .scalar _, _, h | .set _, _, h => h
  | .list items, _, h => closedItems_tie items h
  | .pair a b, _, h => by
    rw [closed, Bool.and_eq_true] at h
    rw [tie, closed, Bool.and_eq_true]
    exact ⟨closed_tie a h.1, closed_tie b h.2⟩
  | .map k fields, i, h => by
    rw [closed] at h
    rw [tie]
    split_ifs with hk
    · simp only [closed, Bool.or_eq_true, decide_eq_true_eq]
      exact (Classical.em (n = m)).symm.imp_right Or.inr
    · rw [closed, Bool.or_right_comm]
      exact closedFields_tie fields h
  | .ring k items, i, h => by
    rw [closed, Bool.and_eq_true] at h
    rw [tie, closed, Bool.and_eq_true]
    exact ⟨h.1, closedItems_tie items h.2⟩
  | .again k, i, h => by
    rw [closed, Bool.or_eq_true] at h
    rw [tie, closed, Bool.or_eq_true, Bool.or_eq_true]
    exact h.imp_right Or.inl

theorem closedItems_tie : ∀ (items : List Value) {i : Bool}, closedItems m i items →
    closedItems m (i || decide (n = m)) (tieItems n items)
  | [], _, h => h
  | v :: rest, _, h => by
    rw [closedItems, Bool.and_eq_true] at h
    rw [tieItems, closedItems, Bool.and_eq_true]
    exact ⟨closed_tie v h.1, closedItems_tie rest h.2⟩

theorem closedFields_tie : ∀ (fields : List (Scalar × Value)) {i : Bool},
    closedFields m i fields → closedFields m (i || decide (n = m)) (tieFields n fields)
  | [], _, h => h
  | (_, v) :: rest, _, h => by
    rw [closedFields, Bool.and_eq_true] at h
    rw [tieFields, closedFields, Bool.and_eq_true]
    exact ⟨closed_tie v h.1, closedFields_tie rest h.2⟩

end

mutual

theorem closed_assign (hf : (map (some n) fields).closed m false) : ∀ (v : Value) {i : Bool},
    closed m i v → closed m i (v.assign n fields)
  | .scalar _, _, h | .set _, _, h | .again _, _, h => h
  | .list items, _, h => closedItems_assign hf items h
  | .pair a b, _, h => by
    rw [closed, Bool.and_eq_true] at h
    rw [assign, closed, Bool.and_eq_true]
    exact ⟨closed_assign hf a h.1, closed_assign hf b h.2⟩
  | .map k fs, i, h => by
    rw [closed] at h
    rw [assign]
    split_ifs with hk
    · subst hk
      exact closed_anywhere hf
    · exact closedFields_assign hf fs h
  | .ring k items, i, h => by
    rw [closed, Bool.and_eq_true] at h
    rw [assign, closed, Bool.and_eq_true]
    exact ⟨h.1, closedItems_assign hf items h.2⟩

theorem closedItems_assign (hf : (map (some n) fields).closed m false) :
    ∀ (items : List Value) {i : Bool}, closedItems m i items →
      closedItems m i (assignItems n fields items)
  | [], _, h => h
  | v :: rest, _, h => by
    rw [closedItems, Bool.and_eq_true] at h
    rw [assignItems, closedItems, Bool.and_eq_true]
    exact ⟨closed_assign hf v h.1, closedItems_assign hf rest h.2⟩

theorem closedFields_assign (hf : (map (some n) fields).closed m false) :
    ∀ (fs : List (Scalar × Value)) {i : Bool}, closedFields m i fs →
      closedFields m i (assignFields n fields fs)
  | [], _, h => h
  | (_, v) :: rest, _, h => by
    rw [closedFields, Bool.and_eq_true] at h
    rw [assignFields, closedFields, Bool.and_eq_true]
    exact ⟨closed_assign hf v h.1, closedFields_assign hf rest h.2⟩

end

/-! ## Reading and writing -/

mutual

theorem plug_of_closed : ∀ v : Value, closed m false v → plug m w v = v
  | .scalar _, _ | .set _, _ => rfl
  | .list items, h => congrArg list (plugItems_of_closed items h)
  | .pair a b, h => by
    rw [closed, Bool.and_eq_true] at h
    rw [plug, plug_of_closed a h.1, plug_of_closed b h.2]
  | .map k fields, h => by
    rw [plug]
    split_ifs with hk
    · rfl
    · rw [closed, Bool.false_or, decide_eq_false hk] at h
      rw [plugFields_of_closed fields h]
  | .ring k items, h => by
    rw [closed, Bool.and_eq_true, decide_eq_true_eq] at h
    rw [plug, if_neg h.1, plugItems_of_closed items h.2]
  | .again k, h => by
    rw [closed, Bool.or_false, decide_eq_true_eq] at h
    rw [plug, if_neg h]

theorem plugItems_of_closed : ∀ items : List Value, closedItems m false items →
    plugItems m w items = items
  | [], _ => rfl
  | v :: rest, h => by
    rw [closedItems, Bool.and_eq_true] at h
    rw [plugItems, plug_of_closed v h.1, plugItems_of_closed rest h.2]

theorem plugFields_of_closed : ∀ fields : List (Scalar × Value), closedFields m false fields →
    plugFields m w fields = fields
  | [], _ => rfl
  | (k, v) :: rest, h => by
    rw [closedFields, Bool.and_eq_true] at h
    rw [plugFields, plug_of_closed v h.1, plugFields_of_closed rest h.2]

end

mutual

/-- Writing a reference and reading it again is the edit. -/
theorem plug_tie : ∀ v : Value, closed m false v →
    plug m (map (some m) fields) (tie m v) = v.assign m fields
  | .scalar _, _ | .set _, _ => rfl
  | .list items, h => congrArg list (plugItems_tie items h)
  | .pair a b, h => by
    rw [closed, Bool.and_eq_true] at h
    rw [tie, plug, plug_tie a h.1, plug_tie b h.2, assign]
  | .map k fs, h => by
    rw [tie, assign]
    split_ifs with hk
    · rw [plug, if_pos rfl, hk]
    · rw [closed, Bool.false_or, decide_eq_false hk] at h
      rw [plug, if_neg hk, plugFields_tie fs h]
  | .ring k items, h => by
    rw [closed, Bool.and_eq_true, decide_eq_true_eq] at h
    rw [tie, plug, if_neg h.1, plugItems_tie items h.2, assign]
  | .again k, h => by
    rw [closed, Bool.or_false, decide_eq_true_eq] at h
    rw [tie, plug, if_neg h, assign]

theorem plugItems_tie : ∀ items : List Value, closedItems m false items →
    plugItems m (map (some m) fields) (tieItems m items) = assignItems m fields items
  | [], _ => rfl
  | v :: rest, h => by
    rw [closedItems, Bool.and_eq_true] at h
    rw [tieItems, plugItems, plug_tie v h.1, plugItems_tie rest h.2, assignItems]

theorem plugFields_tie : ∀ fs : List (Scalar × Value), closedFields m false fs →
    plugFields m (map (some m) fields) (tieFields m fs) = assignFields m fields fs
  | [], _ => rfl
  | (k, v) :: rest, h => by
    rw [closedFields, Bool.and_eq_true] at h
    rw [tieFields, plugFields, plug_tie v h.1, plugFields_tie rest h.2, assignFields]

end

mutual

/-- An edit of another mapping may be made before or after reading. -/
theorem plug_assign (hf : closedFields n false fields) : ∀ v : Value,
    plug n (w.assign m fields) (v.assign m fields) = (plug n w v).assign m fields
  | .scalar _ | .set _ => rfl
  | .list items => congrArg list (plugItems_assign hf items)
  | .pair a b => by
    rw [assign, plug, plug_assign hf a, plug_assign hf b, plug, assign]
  | .map k fs => by
    rw [assign, plug]
    by_cases hk : k = some m
    · rw [if_pos hk, plug, plugFields_of_closed fields hf, ite_self]
      split_ifs <;> rw [assign, if_pos hk]
    · rw [if_neg hk, plug]
      split_ifs
      · rw [assign, if_neg hk]
      · rw [assign, if_neg hk, plugFields_assign hf fs]
  | .ring k items => by
    rw [assign, plug, plug]
    split_ifs
    · rw [assign]
    · rw [assign, plugItems_assign hf items]
  | .again k => by
    rw [assign, plug, plug]
    split_ifs
    · rfl
    · rw [assign]

theorem plugItems_assign (hf : closedFields n false fields) : ∀ items : List Value,
    plugItems n (w.assign m fields) (assignItems m fields items) =
      assignItems m fields (plugItems n w items)
  | [] => rfl
  | v :: rest => by
    rw [assignItems, plugItems, plug_assign hf v, plugItems_assign hf rest, plugItems, assignItems]

theorem plugFields_assign (hf : closedFields n false fields) : ∀ fs : List (Scalar × Value),
    plugFields n (w.assign m fields) (assignFields m fields fs) =
      assignFields m fields (plugFields n w fs)
  | [] => rfl
  | (k, v) :: rest => by
    rw [assignFields, plugFields, plug_assign hf v, plugFields_assign hf rest, plugFields,
      assignFields]

end

/-! ## Mappings -/

theorem fields?_map (h : v.fields? = some fields) : ∃ m fs, v = .map m fs := by
  unfold fields? at h
  cases v with
  | map m fs => exact ⟨m, fs, rfl⟩
  | _ => cases h

theorem closed_fields? (hv : v.closed m false) (h : v.fields? = some fields) :
    closedFields m false fields := by
  obtain ⟨k, fs, rfl⟩ := fields?_map h
  cases k with
  | none => exact Option.some.inj h ▸ hv
  | some n =>
    rw [← Option.some.inj h]
    refine closedFields_plug hv fs (closedFields_mono fs (fun hi => ?_) hv)
    simpa using hi

theorem closed_withFields (h : closedFields m false fields) :
    (v.withFields fields).1.closed m false := by
  unfold withFields
  split
  · next n fs =>
    refine closedFields_mono _ (fun hi => ?_) (closedFields_tie (n := n) fields h)
    simpa using hi
  · exact h

theorem closed_applyAll_withFields (hu : u.closed m false) (h : closedFields m false fields) :
    (u.applyAll (v.withFields fields).2).closed m false := by
  have hnew : (v.withFields fields).1.closed m false := closed_withFields h
  unfold withFields at hnew ⊢
  split
  · exact closed_assign hnew u hu
  · exact hu

/-- **After an edit a mapping has the fields that it was given**, with the edit made in them. -/
theorem fields?_withFields (hv : v.isMap)
    (h : ∀ m, v.mark? = some m → closedFields m false fields) :
    ((v.withFields fields).1.applyAll (v.withFields fields).2).fields? =
      some (fields.applyAll (v.withFields fields).2) := by
  cases v with
  | map k fs =>
    cases k with
    | none => exact congrArg some Fields.applyAll_nil.symm
    | some m =>
      change ((map (some m) (tieFields m fields)).assign m (tieFields m fields)).fields? =
        some (fields.applyAll [⟨m, tieFields m fields⟩])
      rw [assign, if_pos rfl, ← assignFields_eq, ← plugFields_tie fields (h m rfl)]
      rfl
  | _ => cases hv

/-- **An edit of another mapping** is made in the fields of this one. -/
theorem fields?_applyAll (hu : u.fields? = some fs) (hne : ∀ m, v.mark? = some m → u.mark? ≠ some m)
    (h : ∀ n, u.mark? = some n → (v.withFields fields).1.closed n false) :
    (u.applyAll (v.withFields fields).2).fields? =
      some (fs.applyAll (v.withFields fields).2) := by
  unfold withFields at h ⊢
  split at h
  · next m _ =>
    obtain ⟨k, gs, rfl⟩ := fields?_map hu
    have hother : k ≠ some m := hne m rfl
    change ((map k gs).assign m (tieFields m fields)).fields? =
      some (fs.applyAll [⟨m, tieFields m fields⟩])
    rw [assign, if_neg hother, ← assignFields_eq]
    cases k with
    | none => rw [← Option.some.inj hu]; rfl
    | some n =>
      have hn : closedFields n (false || decide (some m = some n)) (tieFields m fields) := h n rfl
      rw [decide_eq_false (Ne.symm hother), Bool.or_false] at hn
      rw [← Option.some.inj hu, ← plugFields_assign hn gs, assign, if_neg hother]
      rfl
  · exact hu.trans (congrArg some Fields.applyAll_nil.symm)

end Value

end StepLoom
