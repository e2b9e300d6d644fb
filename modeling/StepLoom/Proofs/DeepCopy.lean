import StepLoom.Proofs.Compile.Sound
import StepLoom.Proofs.Sharing.Unmarked
import StepLoom.Value.Slots

/-!
# Copies of values

A copy has the same parts as the value, each copied. Only the members of a set may come in another
order, but a copied set has no members of its own (`mem_ofCopy`).

**Theorem (`members_copy`).** What a copy lists are copies of what the value lists.
-/

namespace StepLoom

/-! ## Sets -/

namespace Slots

variable {s : Slots} {t u : Tenant} {ts : List Tenant} {m : Scalar} {members : List Scalar}
  {n : Nat}

theorem mem_tenants : t ∈ s.tenants ↔ some t ∈ s.slots := by
  rw [tenants, List.mem_filterMap, Array.mem_def]
  simp

theorem mem_put (h : u ∈ (s.put t).tenants) : u = t ∨ u ∈ s.tenants := by
  rw [mem_tenants, put] at h
  rcases Array.mem_or_eq_of_mem_setIfInBounds h with h | h
  · exact Or.inr (mem_tenants.mpr h)
  · exact Or.inl (Option.some.inj h)

theorem mem_foldl_put (h : u ∈ (ts.foldl put s).tenants) : u ∈ ts ∨ u ∈ s.tenants := by
  induction ts generalizing s with
  | nil => exact Or.inr h
  | cons t rest ih =>
    rcases ih h with h | h
    · exact Or.inl (List.mem_cons_of_mem t h)
    · rcases mem_put h with rfl | h
      · exact Or.inl List.mem_cons_self
      · exact Or.inr h

theorem not_mem_empty : u ∉ (empty n).tenants := by
  rw [mem_tenants, empty]
  simp

theorem mem_add (h : u ∈ (s.add t).tenants) : u = t ∨ u ∈ s.tenants := by
  rw [add] at h
  split_ifs at h
  · rcases mem_foldl_put h with h | h
    · exact mem_put h
    · exact absurd h not_mem_empty
  · exact mem_put h

theorem mem_foldl_add (h : u ∈ (ts.foldl add s).tenants) : u ∈ ts ∨ u ∈ s.tenants := by
  induction ts generalizing s with
  | nil => exact Or.inr h
  | cons t rest ih =>
    rcases ih h with h | h
    · exact Or.inl (List.mem_cons_of_mem t h)
    · rcases mem_add h with rfl | h
      · exact Or.inl List.mem_cons_self
      · exact Or.inr h

theorem member_of_tenants {ts : List Tenant} (h : members.mapM tenant? = some ts) (ht : t ∈ ts) :
    t.member ∈ members := by
  induction members generalizing ts with
  | nil =>
    obtain rfl := Option.some.inj h
    cases ht
  | cons m rest ih =>
    rw [List.mapM_cons] at h
    obtain ⟨first, hfirst, h⟩ := Option.bind_eq_some_iff.mp h
    obtain ⟨more, hmore, h⟩ := Option.bind_eq_some_iff.mp h
    obtain rfl := Option.some.inj h
    rcases List.mem_cons.mp ht with rfl | ht
    · obtain ⟨residue, -, hresidue⟩ := Option.bind_eq_some_iff.mp hfirst
      rw [← Option.some.inj hresidue]
      exact List.mem_cons_self
    · exact List.mem_cons_of_mem m (ih hmore ht)

/-- A copied set has no members of its own. -/
theorem mem_ofCopy (h : m ∈ ofCopy members) : m ∈ members := by
  rw [ofCopy, arrange] at h
  split at h
  · next tenants htenants =>
    obtain ⟨t, ht, rfl⟩ := List.mem_map.mp h
    rcases mem_foldl_add ht with ht | ht
    · exact member_of_tenants htenants ht
    · exact absurd ht not_mem_empty
  · exact h

end Slots

/-! ## Parts of copies -/

namespace Value

variable {v w : Value} {vs : List Value} {fields : Fields} {key : Scalar} {f : Option Value}

theorem copyItems_eq (vs : List Value) : copyItems vs = vs.map copy := by
  induction vs with
  | nil => rfl
  | cons v rest ih => rw [copyItems, ih, List.map_cons]

theorem copyFields_eq (fields : Fields) :
    copyFields fields = fields.map fun f => (f.1, f.2.copy) := by
  induction fields with
  | nil => rfl
  | cons f rest ih => rw [copyFields, ih, List.map_cons]

theorem copy_ofKey : ∀ k : Scalar, (ofKey k).copy = ofKey k
  | .pair a b => by rw [ofKey, copy, copy_ofKey a, copy_ofKey b]
  | .null | .bool _ | .int _ | .float _ | .str _ | .date _ | .timestamp _ | .bytes _ => rfl

mutual

theorem marks_copy : ∀ v : Value, v.copy.marks = v.marks
  | .scalar _ => rfl
  | .list items => by rw [copy, marks, marks_copyItems items, marks]
  | .pair a b => by rw [copy, marks, marks_copy a, marks_copy b, marks]
  | .set _ => rfl
  | .map m fields => by rw [copy, marks, marks_copyFields fields, marks]
  | .ring m items => by rw [copy, marks, marks_copyItems items, marks]
  | .again _ => rfl

theorem marks_copyItems : ∀ vs : List Value, marksOfItems (copyItems vs) = marksOfItems vs
  | [] => rfl
  | v :: rest => by rw [copyItems, marksOfItems, marks_copy v, marks_copyItems rest, marksOfItems]

theorem marks_copyFields : ∀ fields : Fields,
    marksOfFields (copyFields fields) = marksOfFields fields
  | [] => rfl
  | (k, v) :: rest => by
    rw [copyFields, marksOfFields, marks_copy v, marks_copyFields rest, marksOfFields]

end

theorem Unmarked.copy (h : v.Unmarked) : v.copy.Unmarked := (marks_copy v).trans h

mutual

/-- Copying keeps integers as they are. -/
theorem hasText_copy : ∀ v : Value, v.hasText → v.copy.hasText
  | .scalar _, h => h
  | .list items, h => hasText_copyItems items h
  | .pair a b, h => by
    rw [hasText, Bool.and_eq_true] at h
    rw [copy, hasText, Bool.and_eq_true]
    exact ⟨hasText_copy a h.1, hasText_copy b h.2⟩
  | .set members, h => by
    rw [hasText, List.all_eq_true] at h
    rw [copy, hasText, List.all_eq_true]
    exact fun m hm => h m (Slots.mem_ofCopy hm)
  | .map _ fields, h => hasText_copyFields fields h
  | .ring _ items, h => hasText_copyItems items h
  | .again _, h => h

theorem hasText_copyItems : ∀ vs : List Value, itemsHaveText vs → itemsHaveText (copyItems vs)
  | [], h => h
  | v :: rest, h => by
    rw [itemsHaveText, Bool.and_eq_true] at h
    rw [copyItems, itemsHaveText, Bool.and_eq_true]
    exact ⟨hasText_copy v h.1, hasText_copyItems rest h.2⟩

theorem hasText_copyFields : ∀ fields : Fields,
    fieldsHaveText fields → fieldsHaveText (copyFields fields)
  | [], h => h
  | (k, v) :: rest, h => by
    rw [fieldsHaveText, Bool.and_eq_true, Bool.and_eq_true] at h
    rw [copyFields, fieldsHaveText, Bool.and_eq_true, Bool.and_eq_true]
    exact ⟨⟨h.1.1, hasText_copy v h.1.2⟩, hasText_copyFields rest h.2⟩

end

theorem get?_copyFields (key : Scalar) (fields : Fields) :
    Fields.get? key (copyFields fields) = (Fields.get? key fields).map copy := by
  induction fields with
  | nil => rfl
  | cons f rest ih =>
    obtain ⟨k, v⟩ := f
    rw [copyFields, Fields.get?, Fields.get?]
    split_ifs
    · rfl
    · exact ih

theorem fields?_copy (h : v.Unmarked) : v.copy.fields? = v.fields?.map copyFields := by
  cases v with
  | map m fields =>
    cases m with
    | none => rfl
    | some m => simp [Unmarked, marks] at h
  | ring m items => simp [Unmarked, marks] at h
  | _ => rfl

theorem part_copy (h : v.Unmarked) (key : Scalar) : v.copy.part key = (v.part key).map copy := by
  rw [part, part, fields?_copy h]
  cases v.fields? with
  | none => rfl
  | some fields => exact get?_copyFields key fields

/-! ## Blank values -/

theorem isBlank_copy (h : v.isBlank) : v.copy.isBlank := by
  cases v with
  | scalar s => exact h
  | list items =>
    obtain rfl := List.isEmpty_iff.mp h
    rfl
  | pair a b => cases h
  | set members =>
    obtain rfl := List.isEmpty_iff.mp h
    rfl
  | map m fields =>
    obtain rfl := List.isEmpty_iff.mp h
    rfl
  | ring m items =>
    obtain rfl := List.isEmpty_iff.mp h
    rfl
  | again m => cases h

/-- What is given in a copy is a copy of what is given. -/
theorem given?_copy (h : given? (f.map copy) = some w) : ∃ v, given? f = some v ∧ w = v.copy := by
  obtain ⟨hsome, hblank⟩ := Option.filter_eq_some_iff.mp h
  obtain ⟨v, rfl, rfl⟩ := Option.map_eq_some_iff.mp hsome
  refine ⟨v, Option.filter_eq_some_iff.mpr ⟨rfl, ?_⟩, rfl⟩
  by_contra hv
  rw [Bool.not_eq_true, Bool.not_eq_false'] at hv
  rw [isBlank_copy hv] at hblank
  cases hblank

/-! ## Members -/

theorem keys_copyFields (fields : Fields) :
    Fields.keys (copyFields fields) = Fields.keys fields := by
  rw [copyFields_eq, Fields.keys, Fields.keys, List.map_map]
  rfl

/-- **What a copy lists** are copies of what the value lists. -/
theorem members_copy (h : v.Unmarked) (hv : v.members = .ok vs) :
    ∃ ws, v.copy.members = .ok ws ∧ ∀ w ∈ ws, ∃ u ∈ vs, w = u.copy := by
  have hkeys : ∀ ks : List Scalar, ∀ w ∈ ks.map ofKey, ∃ u ∈ ks.map ofKey, w = u.copy := by
    intro ks w hw
    obtain ⟨k, -, rfl⟩ := List.mem_map.mp hw
    exact ⟨ofKey k, hw, (copy_ofKey k).symm⟩
  unfold Value.members at hv
  cases v with
  | scalar s =>
    refine ⟨vs, hv, fun w hw => ⟨w, hw, ?_⟩⟩
    cases s with
    | str s =>
      obtain rfl := Except.ok.inj hv
      obtain ⟨c, -, rfl⟩ := List.mem_map.mp hw
      rfl
    | bytes bs =>
      obtain rfl := Except.ok.inj hv
      obtain ⟨c, -, rfl⟩ := List.mem_map.mp hw
      rfl
    | _ => simp [unroll] at hv
  | list items =>
    obtain rfl := Except.ok.inj hv
    refine ⟨items.map copy, by rw [copy, copyItems_eq]; rfl, fun w hw => ?_⟩
    obtain ⟨u, hu, rfl⟩ := List.mem_map.mp hw
    exact ⟨u, hu, rfl⟩
  | pair a b =>
    obtain rfl := Except.ok.inj hv
    exact ⟨[a.copy, b.copy], rfl, by simp⟩
  | set members =>
    obtain rfl := Except.ok.inj hv
    refine ⟨(Slots.ofCopy members).map ofKey, rfl, fun w hw => ?_⟩
    obtain ⟨k, hk, rfl⟩ := List.mem_map.mp hw
    exact ⟨ofKey k, List.mem_map_of_mem (Slots.mem_ofCopy hk), (copy_ofKey k).symm⟩
  | map m fields =>
    cases m with
    | some m => simp [Unmarked, marks] at h
    | none =>
      obtain rfl := Except.ok.inj hv
      refine ⟨Fields.keys fields, ?_, fun w hw => ?_⟩
      · change Except.ok (Fields.keys (copyFields fields)) = _
        rw [keys_copyFields]
      · obtain ⟨f, -, rfl⟩ := List.mem_map.mp hw
        exact ⟨ofKey f.1, hw, (copy_ofKey f.1).symm⟩
  | ring m items => simp [Unmarked, marks] at h
  | again m => simp [unroll] at hv

theorem membersOrNone_copy (h : ∀ v, f = some v → v.Unmarked) (hv : membersOrNone f = .ok vs) :
    ∃ ws, membersOrNone (f.map copy) = .ok ws ∧ ∀ w ∈ ws, ∃ u ∈ vs, w = u.copy := by
  unfold membersOrNone at hv ⊢
  cases hg : given? (f.map copy) with
  | none => exact ⟨[], rfl, by simp⟩
  | some w =>
    obtain ⟨v, hgiven, rfl⟩ := given?_copy hg
    rw [hgiven] at hv
    exact members_copy (h v (Option.filter_eq_some_iff.mp hgiven).1) hv

/-! ## What the compiler reads in a copy -/

theorem IsText.copy (h : IsText v) : v.copy = v := by
  obtain ⟨s, rfl⟩ := h
  rfl

theorem TextList.copy (h : ∀ v, f = some v → v.Unmarked) (ht : TextList f) :
    TextList (f.map copy) := by
  obtain ⟨vs, hvs, htexts⟩ := textList_iff.mp ht
  rw [textList_iff]
  unfold oneOrMany at hvs ⊢
  cases hg : given? (f.map Value.copy) with
  | none => exact ⟨[], rfl, by simp⟩
  | some w =>
    obtain ⟨v, hgiven, rfl⟩ := given?_copy hg
    rw [hgiven] at hvs
    by_cases hv : IsText v
    · obtain ⟨s, rfl⟩ := hv
      exact ⟨[.str s], rfl, fun x hx => ⟨s, List.mem_singleton.mp hx⟩⟩
    · have hmembers : v.members = .ok vs := by
        cases v with
        | scalar s =>
          cases s with
          | str s => exact absurd ⟨s, rfl⟩ hv
          | _ => exact hvs
        | _ => exact hvs
      obtain ⟨ws, hws, hall⟩ := members_copy (h v (Option.filter_eq_some_iff.mp hgiven).1) hmembers
      refine ⟨ws, ?_, fun x hx => ?_⟩
      · cases v with
        | scalar s =>
          cases s with
          | str s => exact absurd ⟨s, rfl⟩ hv
          | _ => exact hws
        | _ => exact hws
      · obtain ⟨u, hu, rfl⟩ := hall x hx
        rw [(htexts u hu).copy]
        exact htexts u hu

theorem Spoken.copy (h : Spoken f) : Spoken (f.map copy) := by
  intro w hw
  obtain ⟨v, hv, rfl⟩ := given?_copy hw
  exact hasText_copy v (h v hv)

theorem BlankOrText.copy (h : BlankOrText f) : BlankOrText (f.map copy) := by
  intro w hw
  obtain ⟨v, hv, rfl⟩ := given?_copy hw
  rw [(h v hv).copy]
  exact h v hv

theorem PlainId.copy (h : PlainId f) : PlainId (f.map copy) := by
  intro w hw
  obtain ⟨v, hv, rfl⟩ := given?_copy hw
  have hplain := h v hv
  cases v with
  | scalar s => exact hplain
  | _ => exact hplain.elim

end Value

open Value

theorem Step.Ready.copy {step : Value} (hun : step.Unmarked) (h : Step.Ready step) :
    Step.Ready step.copy where
  gate := by
    rw [part_copy hun]
    exact h.gate.copy
  bail := by
    rw [part_copy hun]
    exact h.bail.copy
  id hb := by
    rw [part_copy hun] at hb ⊢
    obtain ⟨w, hw⟩ := Option.isSome_iff_exists.mp hb
    obtain ⟨v, hv, -⟩ := given?_copy hw
    exact (h.id (Option.isSome_of_eq_some hv)).copy

theorem Setup.steps_copy {d : Value} {items : List Value} (hun : d.Unmarked)
    (h : Setup.steps d = .ok items) : ∃ items', Setup.steps d.copy = .ok items' ∧
      ∀ item ∈ items', ∃ u ∈ items, u.Unmarked ∧ item = u.copy := by
  have hfield : ∀ fields, d = .record fields → ∃ items',
      membersOrNone (Fields.get? "steps" (copyFields fields)) = .ok items' ∧
      ∀ item ∈ items', ∃ u ∈ items, u.Unmarked ∧ item = u.copy := by
    rintro fields rfl
    have hget : ∀ v, Fields.get? "steps" fields = some v → v.Unmarked := fun v hv => hun.of_get? hv
    have hitems : membersOrNone (Fields.get? "steps" fields) = .ok items := h
    obtain ⟨ws, hws, hall⟩ := membersOrNone_copy hget hitems
    rw [get?_copyFields]
    refine ⟨ws, hws, fun w hw => ?_⟩
    obtain ⟨u, hu, rfl⟩ := hall w hw
    refine ⟨u, hu, ?_, rfl⟩
    unfold membersOrNone at hitems
    cases hg : given? (Fields.get? "steps" fields) with
    | none =>
      rw [hg] at hitems
      obtain rfl := Except.ok.inj hitems
      cases hu
    | some v =>
      rw [hg] at hitems
      exact (hget v (Option.filter_eq_some_iff.mp hg).1).members hitems u hu
  cases d with
  | scalar s =>
    cases s with
    | null =>
      obtain rfl := Except.ok.inj h
      exact ⟨[], rfl, by simp⟩
    | _ => simp [Setup.steps, unroll, field?, fields?, bind, Except.bind] at h
  | list vs =>
    obtain rfl := Except.ok.inj h
    refine ⟨vs.map Value.copy, by rw [Value.copy, copyItems_eq]; rfl, fun w hw => ?_⟩
    obtain ⟨u, hu, rfl⟩ := List.mem_map.mp hw
    exact ⟨u, hu, hun.list u hu, rfl⟩
  | map m fields =>
    cases m with
    | none => exact hfield fields rfl
    | some m => simp [Unmarked, marks] at hun
  | ring m vs => simp [Unmarked, marks] at hun
  | _ => simp [Setup.steps, unroll, field?, fields?, bind, Except.bind] at h

theorem Setup.Ready.copy {d : Value} (hun : d.Unmarked) (h : Setup.Ready d) :
    Setup.Ready d.copy := by
  obtain ⟨items, hitems, hall⟩ := Setup.hasReadySteps_iff.mp h.2
  obtain ⟨items', hitems', hcopies⟩ := Setup.steps_copy hun hitems
  refine ⟨?_, Setup.hasReadySteps_iff.mpr ⟨items', hitems', fun item hitem => ?_⟩⟩
  · rw [part_copy hun]
    exact h.1.copy fun v hv => hun.part hv
  · obtain ⟨u, hu, hunmarked, rfl⟩ := hcopies item hitem
    obtain ⟨hmap, hname, hready⟩ := hall u hu
    refine ⟨?_, ?_, hready.copy hunmarked⟩
    · rw [fields?_copy hunmarked, Option.isSome_map]
      exact hmap
    · rw [part_copy hunmarked]
      exact hname.copy

namespace Job

variable {job : Value}

theorem steps_eq {vs : List Value} (h : membersOrNone (job.part "steps") = .ok vs) :
    steps job = vs := by
  rw [steps, h]

theorem Formed.steps_copy (hf : Formed job) (hun : job.Unmarked) :
    (∃ ws, membersOrNone (job.copy.part "steps") = .ok ws) ∧
      ∀ step ∈ Job.steps job.copy, ∃ u ∈ Job.steps job, step = u.copy := by
  obtain ⟨vs, hvs⟩ := hf.steps
  obtain ⟨ws, hws, hall⟩ := membersOrNone_copy (fun v hv => hun.part hv) hvs
  rw [← part_copy hun] at hws
  rw [steps_eq hvs, steps_eq hws]
  exact ⟨⟨ws, hws⟩, hall⟩

theorem Formed.copy (hf : Formed job) (hun : job.Unmarked) : Formed job.copy where
  fields := by
    obtain ⟨fields, hfields⟩ := hf.fields
    exact ⟨copyFields fields, by rw [fields?_copy hun, hfields]; rfl⟩
  steps := (hf.steps_copy hun).1
  each step hstep := by
    obtain ⟨u, hu, rfl⟩ := (hf.steps_copy hun).2 step hstep
    obtain ⟨fields, hfields⟩ := hf.each u hu
    refine ⟨copyFields fields, ?_⟩
    rw [fields?_copy (hun.steps u hu), hfields]
    rfl

theorem Ready.copy (h : Ready job) (hf : Formed job) (hun : job.Unmarked) : Ready job.copy := by
  refine ⟨?_, fun step hstep => ?_⟩
  · rw [part_copy hun]
    exact h.1.copy fun v hv => hun.part hv
  · obtain ⟨u, hu, rfl⟩ := (hf.steps_copy hun).2 step hstep
    have hunmarked := hun.steps u hu
    obtain ⟨hpaths, hsetups, hready⟩ := h.2 u hu
    refine ⟨?_, ?_, hready.copy hunmarked⟩
    · rw [part_copy hunmarked]
      exact hpaths.copy fun v hv => hunmarked.part hv
    · rw [part_copy hunmarked]
      exact hsetups.copy fun v hv => hunmarked.part hv

end Job

end StepLoom
