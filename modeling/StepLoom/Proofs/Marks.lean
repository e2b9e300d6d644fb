import StepLoom.Proofs.Fields
import StepLoom.Setup

/-!
# Where edits reach

An edit names a mapping by its mark and changes it at all of its places. So it leaves a value alone
in which the mark does not occur (`assign_of_not_mem`).

`Within A` says that all marks of a value are among those of `A`. Whatever is read from such a
value, and whatever is built from such values, is such a value again. There is one lemma for each
function that reads or builds values.
-/

namespace StepLoom

namespace Value

/-- The mark of a mapping. -/
def mark? : Value → Option Nat
  | .map m _ => m
  | _ => none

/-- All marks of a value are among some. -/
def Within (A : Nat → Prop) (v : Value) : Prop := ∀ m ∈ v.marks, A m

end Value

/-- All marks of the values in some fields are among some. -/
def Fields.Within (A : Nat → Prop) (fields : Fields) : Prop := ∀ f ∈ fields, f.2.Within A

namespace Value

variable {A B : Nat → Prop} {m : Nat} {mark : Option Nat} {v w a b : Value} {vs items : List Value}
  {fields fs gs : Fields} {edits : List Edit} {key : Scalar}

theorem Within.mono (h : v.Within A) (hAB : ∀ m, A m → B m) : v.Within B :=
  fun m hm => hAB m (h m hm)

theorem within_marks (v : Value) : v.Within (· ∈ v.marks) := fun _ hm => hm

theorem mem_marksOfItems : m ∈ marksOfItems items ↔ ∃ v ∈ items, m ∈ v.marks := by
  induction items with
  | nil => simp [marksOfItems]
  | cons v rest ih => simp [marksOfItems, ih]

theorem mem_marksOfFields : m ∈ marksOfFields fields ↔ ∃ f ∈ fields, m ∈ f.2.marks := by
  induction fields with
  | nil => simp [marksOfFields]
  | cons f rest ih => simp [marksOfFields, ih]

/-! ## Building values -/

theorem within_scalar (s : Scalar) : (scalar s).Within A := by simp [Within, marks]

theorem within_list : (list items).Within A ↔ ∀ v ∈ items, v.Within A := by
  simp only [Within, marks, mem_marksOfItems]
  refine ⟨fun h v hv m hm => h m ⟨v, hv, hm⟩, ?_⟩
  rintro h m ⟨v, hv, hm⟩
  exact h v hv m hm

theorem within_pair : (pair a b).Within A ↔ a.Within A ∧ b.Within A := by
  simp only [Within, marks, List.mem_append, or_imp, forall_and]

theorem within_map : (map mark fields).Within A ↔ (∀ m, mark = some m → A m) ∧ fields.Within A := by
  simp only [Within, Fields.Within, marks, List.mem_append, or_imp, forall_and, mem_marksOfFields,
    Option.mem_toList]
  refine and_congr_right fun _ => ⟨fun h f hf m hm => h m ⟨f, hf, hm⟩, ?_⟩
  rintro h m ⟨f, hf, hm⟩
  exact h f hf m hm

theorem within_record : (record fields).Within A ↔ fields.Within A := by simp [within_map]

theorem within_ring : (ring m items).Within A ↔ A m ∧ ∀ v ∈ items, v.Within A := by
  rw [← within_list]
  simp [Within, marks]

theorem within_again : (again m).Within A ↔ A m := by simp [Within, marks]

theorem within_ofKey (k : Scalar) : (ofKey k).Within A := by
  rw [Within, show (ofKey k).marks = [] from unmarked_ofKey k]
  simp

/-! ## Edits -/

mutual

/-- **An edit leaves a value alone in which its mark does not occur.** -/
theorem assign_of_not_mem : ∀ v : Value, m ∉ v.marks → v.assign m fields = v
  | .scalar _, _ | .set _, _ | .again _, _ => rfl
  | .list items, h => congrArg list (assignItems_of_not_mem items h)
  | .pair a b, h => by
    rw [marks, List.mem_append, not_or] at h
    rw [assign, assign_of_not_mem a h.1, assign_of_not_mem b h.2]
  | .map n fs, h => by
    rw [marks, List.mem_append, not_or, Option.mem_toList] at h
    rw [assign, if_neg h.1, assignFields_of_not_mem fs h.2]
  | .ring n items, h => by
    rw [marks, List.mem_cons, not_or] at h
    rw [assign, assignItems_of_not_mem items h.2]

theorem assignItems_of_not_mem : ∀ items : List Value, m ∉ marksOfItems items →
    assignItems m fields items = items
  | [], _ => rfl
  | v :: rest, h => by
    rw [marksOfItems, List.mem_append, not_or] at h
    rw [assignItems, assign_of_not_mem v h.1, assignItems_of_not_mem rest h.2]

theorem assignFields_of_not_mem : ∀ fs : List (Scalar × Value), m ∉ marksOfFields fs →
    assignFields m fields fs = fs
  | [], _ => rfl
  | (k, v) :: rest, h => by
    rw [marksOfFields, List.mem_append, not_or] at h
    rw [assignFields, assign_of_not_mem v h.1, assignFields_of_not_mem rest h.2]

end

theorem applyAll_of_not_mem (h : ∀ e ∈ edits, e.mark ∉ v.marks) : v.applyAll edits = v := by
  induction edits with
  | nil => rfl
  | cons e rest ih =>
    change (v.assign e.mark e.fields).applyAll rest = v
    rw [assign_of_not_mem v (h e (by simp)), ih fun e' he' => h e' (List.mem_cons_of_mem e he')]

/-- An edit changes what a mapping has, not which mapping it is. -/
theorem mark?_assign : (v.assign m fields).mark? = v.mark? := by
  cases v with
  | map n fs =>
    rw [assign]
    split_ifs <;> rfl
  | _ => rfl

theorem mark?_applyAll : (v.applyAll edits).mark? = v.mark? := by
  induction edits generalizing v with
  | nil => rfl
  | cons e rest ih =>
    change ((v.assign e.mark e.fields).applyAll rest).mark? = v.mark?
    rw [ih, mark?_assign]

theorem isMap_assign : (v.assign m fields).isMap = v.isMap := by
  cases v with
  | map n fs =>
    rw [assign]
    split_ifs <;> rfl
  | _ => rfl

theorem isMap_applyAll : (v.applyAll edits).isMap = v.isMap := by
  induction edits generalizing v with
  | nil => rfl
  | cons e rest ih => exact ih.trans isMap_assign

/-- The mapping `v` stands nowhere in `w`. -/
def Avoids (v w : Value) : Prop := ∀ m, v.mark? = some m → m ∉ w.marks

/-- The edits are those of some mappings, and their fields come from these mappings. -/
def EditsOf (vs : List Value) (edits : List Edit) : Prop :=
  ∀ e ∈ edits, ∃ v ∈ vs, v.mark? = some e.mark ∧ e.fields.Within (· ∈ v.marks)

theorem editsOf_nil (vs : List Value) : EditsOf vs [] := by simp [EditsOf]

theorem EditsOf.append {es : List Edit} (h : EditsOf vs edits) (h' : EditsOf vs es) :
    EditsOf vs (edits ++ es) :=
  fun e he => (List.mem_append.mp he).elim (h e) (h' e)

theorem EditsOf.mono {ws : List Value} (h : EditsOf vs edits) (hsub : vs ⊆ ws) :
    EditsOf ws edits := fun e he =>
  have ⟨v, hv, hmark⟩ := h e he
  ⟨v, hsub hv, hmark⟩

/-- Edits of mappings that do not stand in a value leave it alone. -/
theorem EditsOf.applyAll_of_avoids (h : EditsOf vs edits) (hv : ∀ v ∈ vs, v.Avoids w) :
    w.applyAll edits = w := by
  refine applyAll_of_not_mem fun e he => ?_
  obtain ⟨v, hmem, hmark, -⟩ := h e he
  exact hv v hmem e.mark hmark

/-- Edits with fields whose marks are among some. -/
def EditsWithin (A : Nat → Prop) (edits : List Edit) : Prop := ∀ e ∈ edits, e.fields.Within A

mutual

theorem Within.assign (hf : fields.Within A) : ∀ v : Value, v.Within A →
    (v.assign m fields).Within A
  | .scalar _, h | .set _, h | .again _, h => h
  | .list items, h => within_list.mpr (within_assignItems hf items (within_list.mp h))
  | .pair a b, h => by
    rw [within_pair] at h
    exact within_pair.mpr ⟨Within.assign hf a h.1, Within.assign hf b h.2⟩
  | .map n fs, h => by
    rw [within_map] at h
    rw [Value.assign]
    split_ifs
    · exact within_map.mpr ⟨h.1, hf⟩
    · exact within_map.mpr ⟨h.1, within_assignFields hf fs h.2⟩
  | .ring n items, h => by
    rw [within_ring] at h
    exact within_ring.mpr ⟨h.1, within_assignItems hf items h.2⟩

theorem within_assignItems (hf : fields.Within A) : ∀ items : List Value,
    (∀ v ∈ items, v.Within A) → ∀ v ∈ assignItems m fields items, v.Within A
  | [], h => h
  | v :: rest, h => by
    rw [List.forall_mem_cons] at h
    exact List.forall_mem_cons.mpr ⟨Within.assign hf v h.1, within_assignItems hf rest h.2⟩

theorem within_assignFields (hf : fields.Within A) : ∀ fs : List (Scalar × Value),
    Fields.Within A fs → Fields.Within A (assignFields m fields fs)
  | [], h => h
  | (k, v) :: rest, h => by
    have h := List.forall_mem_cons.mp h
    exact List.forall_mem_cons.mpr ⟨Within.assign hf v h.1, within_assignFields hf rest h.2⟩

end

theorem Within.applyAll (h : v.Within A) (he : EditsWithin A edits) :
    (v.applyAll edits).Within A := by
  induction edits generalizing v with
  | nil => exact h
  | cons e rest ih =>
    have he := List.forall_mem_cons.mp he
    exact ih (Within.assign he.1 v h) he.2

/-! ## Parts of themselves -/

mutual

theorem Within.plug (hw : w.Within A) : ∀ v : Value, v.Within A → (plug m w v).Within A
  | .scalar _, h | .set _, h => h
  | .list items, h => within_list.mpr (within_plugItems hw items (within_list.mp h))
  | .pair a b, h => by
    rw [within_pair] at h
    exact within_pair.mpr ⟨Within.plug hw a h.1, Within.plug hw b h.2⟩
  | .map n fs, h => by
    rw [Value.plug]
    split_ifs
    · exact h
    · rw [within_map] at h
      exact within_map.mpr ⟨h.1, within_plugFields hw fs h.2⟩
  | .ring n items, h => by
    rw [Value.plug]
    split_ifs
    · exact h
    · rw [within_ring] at h
      exact within_ring.mpr ⟨h.1, within_plugItems hw items h.2⟩
  | .again n, h => by
    rw [Value.plug]
    split_ifs
    · exact hw
    · exact h

theorem within_plugItems (hw : w.Within A) : ∀ items : List Value, (∀ v ∈ items, v.Within A) →
    ∀ v ∈ plugItems m w items, v.Within A
  | [], h => h
  | v :: rest, h => by
    rw [List.forall_mem_cons] at h
    exact List.forall_mem_cons.mpr ⟨Within.plug hw v h.1, within_plugItems hw rest h.2⟩

theorem within_plugFields (hw : w.Within A) : ∀ fs : List (Scalar × Value), Fields.Within A fs →
    Fields.Within A (plugFields m w fs)
  | [], h => h
  | (k, v) :: rest, h => by
    have h := List.forall_mem_cons.mp h
    exact List.forall_mem_cons.mpr ⟨Within.plug hw v h.1, within_plugFields hw rest h.2⟩

end

mutual

theorem Within.tie (hm : A m) : ∀ v : Value, v.Within A → (tie m v).Within A
  | .scalar _, h | .set _, h | .again _, h => h
  | .list items, h => within_list.mpr (within_tieItems hm items (within_list.mp h))
  | .pair a b, h => by
    rw [within_pair] at h
    exact within_pair.mpr ⟨Within.tie hm a h.1, Within.tie hm b h.2⟩
  | .map n fs, h => by
    rw [Value.tie]
    split_ifs
    · exact within_again.mpr hm
    · rw [within_map] at h
      exact within_map.mpr ⟨h.1, within_tieFields hm fs h.2⟩
  | .ring n items, h => by
    rw [within_ring] at h
    exact within_ring.mpr ⟨h.1, within_tieItems hm items h.2⟩

theorem within_tieItems (hm : A m) : ∀ items : List Value, (∀ v ∈ items, v.Within A) →
    ∀ v ∈ tieItems m items, v.Within A
  | [], h => h
  | v :: rest, h => by
    rw [List.forall_mem_cons] at h
    exact List.forall_mem_cons.mpr ⟨Within.tie hm v h.1, within_tieItems hm rest h.2⟩

theorem within_tieFields (hm : A m) : ∀ fs : List (Scalar × Value), Fields.Within A fs →
    Fields.Within A (tieFields m fs)
  | [], h => h
  | (k, v) :: rest, h => by
    have h := List.forall_mem_cons.mp h
    exact List.forall_mem_cons.mpr ⟨Within.tie hm v h.1, within_tieFields hm rest h.2⟩

end

theorem Within.unroll (h : v.Within A) : v.unroll.Within A := by
  cases v with
  | map n fs =>
    cases n with
    | none => exact h
    | some n =>
      have hmap := within_map.mp h
      exact within_map.mpr ⟨hmap.1, within_plugFields h fs hmap.2⟩
  | ring n items => exact within_list.mpr (within_plugItems h items (within_ring.mp h).2)
  | _ => exact h

/-- A mapping that gets new fields, and the edit of its other places. -/
theorem Within.withFields (h : v.Within A) (hf : fields.Within A) :
    (v.withFields fields).1.Within A ∧ EditsWithin A (v.withFields fields).2 := by
  unfold Value.withFields
  split
  · next m fs =>
    have hm : A m := (within_map.mp h).1 m rfl
    have htied := within_tieFields hm fields hf
    exact ⟨within_map.mpr ⟨(within_map.mp h).1, htied⟩, by simpa [EditsWithin] using htied⟩
  · exact ⟨within_record.mpr hf, by simp [EditsWithin]⟩

/-- The edits of a mapping that gets fields of its own. -/
theorem editsOf_withFields (hf : fields.Within (· ∈ v.marks)) :
    EditsOf [v] (v.withFields fields).2 := by
  intro e he
  refine ⟨v, by simp, ?_, ((within_marks v).withFields hf).2 e he⟩
  unfold Value.withFields at he
  split at he
  · rw [List.mem_singleton.mp he]
    rfl
  · cases he

theorem mark?_withFields : (v.withFields fields).1.mark? = v.mark? := by
  unfold Value.withFields
  split
  · rfl
  · next hne =>
    cases v with
    | map n fs =>
      cases n with
      | none => rfl
      | some n => exact absurd rfl (hne n fs)
    | _ => rfl

/-- The edit bears the mark of the mapping. -/
theorem mark_of_withFields {e : Edit} (h : e ∈ (v.withFields fields).2) :
    v.mark? = some e.mark := by
  unfold Value.withFields at h
  split at h
  · rw [List.mem_singleton.mp h]
    rfl
  · cases h

end Value

/-! ## Fields -/

namespace Fields

variable {A : Nat → Prop} {v : Value} {fields fs gs : Fields} {key : Scalar}

theorem within_nil : Within A [] := by simp [Within]

theorem Within.get? (h : fields.Within A) (hv : get? key fields = some v) : v.Within A := by
  induction fields with
  | nil => cases hv
  | cons f rest ih =>
    have h := List.forall_mem_cons.mp h
    rw [Fields.get?] at hv
    split_ifs at hv
    · exact Option.some.inj hv ▸ h.1
    · exact ih h.2 hv

theorem Within.put (h : fields.Within A) (hv : v.Within A) : (put key v fields).Within A := by
  induction fields with
  | nil => simpa [Fields.put, Within] using hv
  | cons f rest ih =>
    have h := List.forall_mem_cons.mp h
    rw [Fields.put]
    split_ifs
    · exact List.forall_mem_cons.mpr ⟨hv, h.2⟩
    · exact List.forall_mem_cons.mpr ⟨h.1, ih h.2⟩

theorem Within.erase (h : fields.Within A) : (erase key fields).Within A := by
  induction fields with
  | nil => exact h
  | cons f rest ih =>
    have h := List.forall_mem_cons.mp h
    rw [Fields.erase]
    split_ifs
    · exact h.2
    · exact List.forall_mem_cons.mpr ⟨h.1, ih h.2⟩

theorem Within.eraseAll (keys : List Scalar) (h : fields.Within A) :
    (keys.foldl (fun fs k => Fields.erase k fs) fields).Within A := by
  induction keys generalizing fields with
  | nil => exact h
  | cons k rest ih => exact ih h.erase

theorem Within.putAll (h : fs.Within A) (h' : gs.Within A) : (putAll fs gs).Within A := by
  induction gs generalizing fs with
  | nil => exact h
  | cons f rest ih =>
    have h' := List.forall_mem_cons.mp h'
    exact ih (h.put h'.1) h'.2

end Fields

/-! ## Reading values -/

namespace Value

variable {A : Nat → Prop} {v w : Value} {vs : List Value} {field : Option Value} {fields : Fields}
  {key : Scalar}

theorem Within.fields? (h : v.Within A) (hf : v.fields? = some fields) : fields.Within A := by
  unfold Value.fields? at hf
  split at hf
  · next heq =>
    have hun := h.unroll
    rw [heq] at hun
    exact Option.some.inj hf ▸ (within_map.mp hun).2
  · cases hf

theorem Within.fieldsOf (h : v.Within A) (hf : v.fieldsOf = .ok fields) : fields.Within A := by
  unfold Value.fieldsOf at hf
  split at hf
  · next heq => exact Except.ok.inj hf ▸ h.fields? heq
  · cases hf

theorem Within.spread (h : v.Within A) (hf : v.spread = .ok fields) : fields.Within A := by
  unfold Value.spread at hf
  split at hf
  · next heq => exact Except.ok.inj hf ▸ h.fields? heq
  · cases hf

theorem Within.field? (h : v.Within A) (hf : v.field? key = .ok (some w)) : w.Within A := by
  unfold Value.field? at hf
  split at hf
  · next heq => exact (h.fields? heq).get? (Except.ok.inj hf)
  · cases hf

theorem Within.part (h : v.Within A) (hf : v.part key = some w) : w.Within A := by
  obtain ⟨fields, hfields, hget⟩ := Option.bind_eq_some_iff.mp hf
  exact (h.fields? hfields).get? hget

theorem Within.take (h : v.Within A) (ht : v.take key = .ok (field, fields)) :
    (∀ w, field = some w → w.Within A) ∧ fields.Within A := by
  obtain ⟨fs, hfs, rfl, rfl⟩ := exists_fields_of_take ht
  have hfields := h.fields? hfs
  exact ⟨fun w hw => hfields.get? hw, hfields.erase⟩

theorem Within.members (h : v.Within A) (hm : v.members = .ok vs) : ∀ w ∈ vs, w.Within A := by
  have hun := h.unroll
  unfold Value.members at hm
  split at hm
  · next heq =>
    rw [heq] at hun
    exact Except.ok.inj hm ▸ within_list.mp hun
  · next heq =>
    rw [heq] at hun
    rw [← Except.ok.inj hm]
    simpa using within_pair.mp hun
  · rw [← Except.ok.inj hm]
    exact List.forall_mem_map.mpr fun k _ => within_ofKey k
  · rw [← Except.ok.inj hm]
    exact List.forall_mem_map.mpr fun f _ => within_ofKey f.1
  · rw [← Except.ok.inj hm]
    exact List.forall_mem_map.mpr fun c _ => within_scalar _
  · rw [← Except.ok.inj hm]
    exact List.forall_mem_map.mpr fun c _ => within_scalar _
  · cases hm

theorem Within.given? (h : ∀ w, field = some w → w.Within A) (hg : given? field = some v) :
    v.Within A := h v (Option.filter_eq_some_iff.mp hg).1

theorem Within.membersOrNone (h : ∀ w, field = some w → w.Within A)
    (hm : membersOrNone field = .ok vs) : ∀ w ∈ vs, w.Within A := by
  unfold Value.membersOrNone at hm
  cases hg : Value.given? field with
  | none =>
    rw [hg] at hm
    rw [← Except.ok.inj hm]
    simp
  | some v =>
    rw [hg] at hm
    exact (Within.given? h hg).members hm

theorem Within.pairsFrom {i : Nat} {pairs : List (Scalar × Value)} (h : ∀ v ∈ vs, v.Within A)
    (hp : pairsFrom i vs = .ok pairs) : Fields.Within A pairs := by
  induction vs generalizing i pairs with
  | nil =>
    rw [← Except.ok.inj hp]
    exact Fields.within_nil
  | cons v rest ih =>
    have h := List.forall_mem_cons.mp h
    rw [Value.pairsFrom] at hp
    cases hm : v.members with
    | error e => rw [hm] at hp; cases hp
    | ok parts =>
      rw [hm] at hp
      have hparts := h.1.members hm
      rcases parts with - | ⟨key, - | ⟨x, - | ⟨y, more⟩⟩⟩
      · cases hp
      · cases hp
      · simp only [bind, Except.bind] at hp
        cases hk : key.key? with
        | none => rw [hk] at hp; cases hp
        | some k =>
          rw [hk] at hp
          cases hrest : Value.pairsFrom (i + 1) rest with
          | error e => rw [hrest] at hp; cases hp
          | ok more =>
            rw [hrest] at hp
            rw [← Except.ok.inj hp]
            exact List.forall_mem_cons.mpr ⟨hparts x (by simp), ih h.2 hrest⟩
      · cases hp

theorem Within.asFields (h : v.Within A) (hf : v.asFields = .ok fields) : fields.Within A := by
  unfold Value.asFields at hf
  split at hf
  · next heq => exact Except.ok.inj hf ▸ h.fields? heq
  · cases hm : v.members with
    | error e => rw [hm] at hf; cases hf
    | ok vs =>
      rw [hm] at hf
      cases hp : Value.pairsFrom 0 vs with
      | error e => simp [hp, bind, Except.bind] at hf
      | ok pairs =>
        simp only [hp, bind, Except.bind] at hf
        rw [← Except.ok.inj hf]
        exact Fields.within_nil.putAll (Within.pairsFrom (h.members hm) hp)

theorem Within.positioned? (h : v.Within A) (hp : v.positioned? = some vs) :
    ∀ w ∈ vs, w.Within A := by
  have hun := h.unroll
  unfold Value.positioned? at hp
  split at hp
  · next heq =>
    rw [heq] at hun
    exact Option.some.inj hp ▸ within_list.mp hun
  · next heq =>
    rw [heq] at hun
    rw [← Option.some.inj hp]
    simpa using within_pair.mp hun
  · rw [← Option.some.inj hp]
    exact List.forall_mem_map.mpr fun c _ => within_scalar _
  · rw [← Option.some.inj hp]
    exact List.forall_mem_map.mpr fun c _ => within_scalar _
  · cases hp

theorem mem_of_itemAt {n : Int} (h : itemAt vs n = .ok v) : v ∈ vs := by
  unfold itemAt at h
  dsimp only at h
  split_ifs at h <;> (split at h <;> cases h; exact List.mem_of_getElem? ‹_›)

theorem Within.lookUp {name : Value} (h : v.Within A) (hl : v.lookUp name = .ok w) :
    w.Within A := by
  unfold Value.lookUp at hl
  split at hl
  · next hfields =>
    split at hl
    · cases hl
    · split at hl
      · next hget => exact Except.ok.inj hl ▸ (h.fields? hfields).get? hget
      · cases hl
  · next hitems => exact h.positioned? hitems w (mem_of_itemAt hl)
  · next hitems => exact h.positioned? hitems w (mem_of_itemAt hl)
  · cases hl

end Value

/-! ## Setups -/

namespace Setup

variable {A : Nat → Prop} {table name definition : Value} {vs : List Value}

/-- What a definition lists. -/
theorem within_steps (h : definition.Within A) (hs : steps definition = .ok vs) :
    ∀ v ∈ vs, v.Within A := by
  have hun := h.unroll
  unfold steps at hs
  split at hs
  · rw [← Except.ok.inj hs]
    simp
  · next heq =>
    rw [heq] at hun
    exact Except.ok.inj hs ▸ Value.within_list.mp hun
  · cases hf : definition.unroll.field? "steps" with
    | error e => rw [hf] at hs; cases hs
    | ok field =>
      rw [hf] at hs
      refine Value.Within.membersOrNone (fun w hw => ?_) hs
      exact hun.field? (hw ▸ hf)

/-- What a table has under a name. -/
theorem within_find? (h : table.Within A) (hf : find? table name = .ok (some definition)) :
    definition.Within A := by
  unfold find? at hf
  cases hc : table.contains name with
  | error e => rw [hc] at hf; cases hf
  | ok found =>
    rw [hc] at hf
    cases found with
    | false => cases hf
    | true =>
      cases hl : table.lookUp name with
      | error e => simp [hl, bind, Except.bind] at hf
      | ok w =>
        simp only [hl, bind, Except.bind, if_true] at hf
        obtain rfl := Option.some.inj (Except.ok.inj hf)
        exact h.lookUp hl

end Setup

end StepLoom
