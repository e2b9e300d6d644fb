import StepLoom.Proofs.Compile.Readable
import StepLoom.Proofs.Sharing.Closed

/-!
# Bail conditions of steps that also stand elsewhere

A step whose mapping also stands elsewhere in the document carries a mark, and each change to it is
an edit that reaches its other places. These may be in another step, or in the step itself.

**Theorem (`Distinct.resolveAll`).** As long as no two steps are one mapping, they become what the
same steps without marks become, with all edits made in their entries, and only their own mappings
are edited.

Both runs go position by position. What changes at a step are texts under a few keys (`Textwise`),
so an edit of other mappings may be made before or after. One step is thus an edit that keeps the
two lists twins (`Twin.edit`), and the loops follow by induction.
-/

namespace StepLoom

open Value

namespace Fields

variable {fields : Fields} {edits : List Edit} {keys : List String} {key : Scalar} {a s : String}

/-- Under some keys there is nothing but texts. -/
def TextsUnder (keys : List String) (fields : Fields) : Prop :=
  ∀ f ∈ fields, ∀ a ∈ keys, f.1 = .str a → ∃ s, f.2 = .str s

theorem TextsUnder.textOrAbsent (h : fields.TextsUnder keys) (ha : a ∈ keys) :
    TextOrAbsent (get? (.str a) fields) := by
  induction fields with
  | nil => exact textOrAbsent_none
  | cons f rest ih =>
    obtain ⟨hf, hrest⟩ := List.forall_mem_cons.mp h
    obtain ⟨k, v⟩ := f
    rw [get?_cons]
    split_ifs with hk
    · obtain ⟨s, rfl⟩ := hf a ha hk
      exact textOrAbsent_str
    · exact ih hrest

/-- Edits do not reach texts. -/
theorem TextsUnder.get?_applyAll (h : fields.TextsUnder keys) (ha : a ∈ keys) :
    get? (.str a) (fields.applyAll edits) = get? (.str a) fields := by
  rw [Fields.get?_applyAll]
  cases hv : get? (.str a) fields with
  | none => rfl
  | some v =>
    obtain ⟨s, rfl⟩ := h.textOrAbsent ha v hv
    exact congrArg some (applyAll_scalar _)

theorem mem_put_text {f : Scalar × Value} (h : f ∈ put key (.str s) fields) :
    f ∈ fields ∨ f.2 = .str s := by
  induction fields with
  | nil => exact Or.inr (congrArg Prod.snd (List.mem_singleton.mp h))
  | cons g rest ih =>
    rw [put] at h
    split_ifs at h
    · rcases List.mem_cons.mp h with rfl | h
      · exact Or.inr rfl
      · exact Or.inl (List.mem_cons_of_mem _ h)
    · rcases List.mem_cons.mp h with rfl | h
      · exact Or.inl List.mem_cons_self
      · exact (ih h).imp_left (List.mem_cons_of_mem _)

theorem erase_sublist : (erase key fields).Sublist fields := by
  induction fields with
  | nil => exact .slnil
  | cons g rest ih =>
    rw [erase]
    split_ifs
    · exact List.sublist_cons_self _ _
    · exact ih.cons_cons _

/-- The keys of a step that resolving bail conditions reads and changes. -/
def gateKeys : List String := ["id", "if", "bail_if"]

/-- A change of fields that neither looks at values other than texts under some keys nor puts any
other value in. -/
structure Textwise (f : Fields → Fields) : Prop where
  edits : ∀ {fields edits}, fields.TextsUnder gateKeys →
    f (fields.applyAll edits) = (f fields).applyAll edits
  mem : ∀ {fields x}, x ∈ f fields → x ∈ fields ∨ ∃ s, x.2 = .str s

theorem Textwise.texts {f : Fields → Fields} (h : Textwise f) (hf : fields.TextsUnder keys) :
    (f fields).TextsUnder keys := fun x hx a ha hxa =>
  (h.mem hx).elim (fun hx => hf x hx a ha hxa) id

theorem Textwise.closedFields {f : Fields → Fields} {m : Nat} (h : Textwise f)
    (hf : Value.closedFields m false fields) : Value.closedFields m false (f fields) := by
  rw [closedFields_iff] at hf ⊢
  intro x hx
  rcases h.mem hx with hx | ⟨s, hs⟩
  · exact hf x hx
  · rw [hs]
    rfl

theorem textwise_put : Textwise (put key (.str s)) where
  edits _ := by
    rw [← put_applyAll, applyAll_scalar]
  mem hx := (mem_put_text hx).imp_right fun h => ⟨s, h⟩

theorem textwise_erase : Textwise (erase key) where
  edits _ := erase_applyAll
  mem hx := Or.inl (erase_sublist.subset hx)

theorem Textwise.comp {f g : Fields → Fields} (hf : Textwise f) (hg : Textwise g) :
    Textwise fun fields => f (g fields) where
  edits h := by rw [hg.edits h, hf.edits (hg.texts h)]
  mem hx := (hf.mem hx).elim hg.mem Or.inr

end Fields

open Fields (gateKeys Textwise)

namespace Value

/-- The mapping as one that stands at one place only. -/
def detached (v : Value) : Value :=
  match v.fields? with
  | some fields => .record fields
  | none => v

theorem isMap_iff {v : Value} : v.isMap = true ↔ ∃ fields, v.fields? = some fields := by
  refine ⟨fields?_of_isMap, ?_⟩
  rintro ⟨fields, hf⟩
  obtain ⟨m, fs, rfl⟩ := fields?_map hf
  rfl

theorem detached_eq {v : Value} {fields : Fields} (h : v.fields? = some fields) :
    v.detached = .record fields := by
  rw [detached, h]

theorem part_detached {v : Value} (h : v.isMap) (key : Scalar) :
    v.detached.part key = v.part key := by
  obtain ⟨fields, hf⟩ := isMap_iff.mp h
  rw [detached_eq hf, part, part, hf]
  rfl

end Value

namespace Bail

variable {steps out out' res' : List Value} {v v' : Value} {edits log log' : List Edit}
  {fields fs : Fields} {marks : List (Option Nat)} {i n count position : Nat} {gate : String}

/-- The steps are mappings, no two of which are one. A step may stand in another one and in itself;
then references to it stand inside it. -/
structure Distinct (steps : List Value) : Prop where
  isMap : ∀ v ∈ steps, v.isMap
  apart : (steps.map mark?).Pairwise fun a b => a = b → a = none
  closed : ∀ v ∈ steps, ∀ u ∈ steps, ∀ m ∈ u.mark?, v.closed m false

theorem distinct_iff : ((∀ v ∈ steps, v.isMap) ∧
    ((steps.map mark?).Pairwise fun a b => a = b → a = none) ∧
    ∀ v ∈ steps, ∀ u ∈ steps, ∀ m ∈ u.mark?, v.closed m false) ↔ Distinct steps :=
  ⟨fun h => ⟨h.1, h.2.1, h.2.2⟩, fun h => ⟨h.isMap, h.apart, h.closed⟩⟩

instance : Decidable (Distinct steps) := decidable_of_iff _ distinct_iff

/-! ## Two runs -/

/-- A step in the run without marks, and the same one in the run with marks, after some edits. -/
def Follows (edits : List Edit) (v' v : Value) : Prop :=
  ∃ fields, v' = .record fields ∧ v.fields? = some (fields.applyAll edits) ∧
    fields.TextsUnder gateKeys

/-- The steps in both runs, those without marks given first. -/
structure Twin (marks : List (Option Nat)) (edits : List Edit) (out' out : List Value) : Prop where
  same : out.map mark? = marks
  follows : List.Forall₂ (Follows edits) out' out
  closed : ∀ v ∈ out, ∀ m, some m ∈ marks → v.closed m false
  own : ∀ e ∈ edits, some e.mark ∈ marks

theorem Distinct.twin (h : Distinct steps)
    (ht : ∀ v ∈ steps, ∀ fields, v.fields? = some fields → fields.TextsUnder gateKeys) :
    Twin (steps.map mark?) [] (steps.map detached) steps where
  same := rfl
  follows := by
    refine List.forall₂_map_left_iff.mpr (List.forall₂_same.mpr fun v hv => ?_)
    obtain ⟨fields, hf⟩ := isMap_iff.mp (h.isMap v hv)
    exact ⟨fields, detached_eq hf, by rw [hf, Fields.applyAll_nil], ht v hv fields hf⟩
  closed v hv m hm := by
    obtain ⟨u, hu, hum⟩ := List.mem_map.mp hm
    exact h.closed v hv u hu m hum
  own := by simp

/-- What both runs read at a position. -/
theorem Twin.at (h : Twin marks edits out' out) (hv : out'[i]? = some v') :
    ∃ fields v, v' = .record fields ∧ out[i]? = some v ∧
      v.fields? = some (fields.applyAll edits) ∧ fields.TextsUnder gateKeys := by
  obtain ⟨v, hv', fields, hfields, hf⟩ := forall₂_getElem? h.follows hv
  exact ⟨fields, v, hfields, hv', hf⟩

theorem Twin.at_none (h : Twin marks edits out' out) (hv : out'[i]? = none) : out[i]? = none := by
  rw [List.getElem?_eq_none_iff] at hv ⊢
  rwa [← h.follows.length_eq]

theorem eq_of_mark (h : marks.Pairwise fun a b => a = b → a = none) {j m : Nat}
    (hi : marks[i]? = some (some m)) (hj : marks[j]? = some (some m)) : i = j := by
  obtain ⟨hi, hmi⟩ := List.getElem?_eq_some_iff.mp hi
  obtain ⟨hj, hmj⟩ := List.getElem?_eq_some_iff.mp hj
  have hpair := List.pairwise_iff_getElem.mp h
  rcases Nat.lt_trichotomy i j with hlt | heq | hlt
  · have hnone := hpair i j hi hj hlt (hmi.trans hmj.symm)
    rw [hmi] at hnone
    cases hnone
  · exact heq
  · have hnone := hpair j i hj hi hlt (hmj.trans hmi.symm)
    rw [hmj] at hnone
    cases hnone

theorem marks_replay (es : List Edit) (vs : List Value) :
    (replay es vs).map mark? = vs.map mark? := by
  rw [replay, List.map_map]
  exact List.map_congr_left fun v _ => mark?_applyAll

/-- **A change of one step** reaches the other steps as an edit in their entries. -/
theorem Twin.edit {f : Fields → Fields} (h : Twin marks edits out' out)
    (hm : marks.Pairwise fun a b => a = b → a = none) (hv' : out'[i]? = some (.record fields))
    (hv : out[i]? = some v) (hf : Textwise f) :
    Twin marks (edits ++ (v.withFields (f (fields.applyAll edits))).2)
      (out'.set i (.record (f fields)))
      (replay (v.withFields (f (fields.applyAll edits))).2
        (out.set i (v.withFields (f (fields.applyAll edits))).1)) := by
  obtain ⟨gs, v₀, hgs, hv₀, hfields, ht⟩ := h.at hv'
  obtain rfl : v₀ = v := Option.some.inj (hv₀.symm.trans hv)
  obtain ⟨-, rfl⟩ := Value.map.inj hgs
  have hmem := List.mem_of_getElem? hv
  have hclosed : ∀ m, some m ∈ marks → closedFields m false (f (fields.applyAll edits)) :=
    fun m hm => hf.closedFields (closed_fields? (h.closed _ hmem m hm) hfields)
  have hmark : ∀ {j : Nat} {u : Value}, out[j]? = some u → marks[j]? = some u.mark? := fun hu => by
    rw [← h.same, List.getElem?_map, hu]
    rfl
  have hown : ∀ {m}, v₀.mark? = some m → some m ∈ marks := fun hvm =>
    hvm ▸ List.mem_of_getElem? (hmark hv)
  generalize hgs : f (fields.applyAll edits) = gs at hclosed ⊢
  rw [hf.edits ht] at hgs
  obtain ⟨hi, hget⟩ := List.getElem?_eq_some_iff.mp hv
  refine ⟨?_, ?_, fun u hu m hm => ?_, fun e he => ?_⟩
  · have hi' : i < (out.map mark?).length := by rwa [List.length_map]
    rw [marks_replay, List.map_set, mark?_withFields, ← hget, ← List.getElem_map mark? (h := hi'),
      List.set_getElem_self, h.same]
  · refine List.forall₂_iff_get.mpr ⟨by simp [replay, h.follows.length_eq], fun j hj hj' => ?_⟩
    simp only [List.get_eq_getElem, replay, List.getElem_map, List.getElem_set]
    split_ifs with hij
    · refine ⟨f fields, rfl, ?_, hf.texts ht⟩
      rw [fields?_withFields (isMap_iff.mpr ⟨_, hfields⟩) fun m hvm => hclosed m (hown hvm),
        Fields.applyAll_append, hgs]
    · obtain ⟨us, u, hus, hu, hufields, hut⟩ :=
        h.at (List.getElem?_eq_getElem (l := out') (i := j) (by simpa using hj))
      obtain ⟨hj, rfl⟩ := List.getElem?_eq_some_iff.mp hu
      refine ⟨us, hus, ?_, hut⟩
      rw [fields?_applyAll hufields (fun m hvm hum => hij ?_) fun m hum => ?_,
        Fields.applyAll_append]
      · exact eq_of_mark hm (hvm ▸ hmark hv) (hum ▸ hmark hu)
      · exact closed_withFields (hclosed m (hum ▸ List.mem_of_getElem? (hmark hu)))
  · obtain ⟨w, hw, rfl⟩ := List.mem_map.mp hu
    rcases List.mem_or_eq_of_mem_set hw with hw | rfl
    · exact closed_applyAll_withFields (h.closed w hw m hm) (hclosed m hm)
    · exact closed_applyAll_withFields (closed_withFields (hclosed m hm)) (hclosed m hm)
  · rcases List.mem_append.mp he with he | he
    · exact h.own e he
    · exact hown (mark_of_withFields he)

/-! ## The loops -/

theorem Twin.gateFrom (h : Twin marks edits out' out)
    (hm : marks.Pairwise fun a b => a = b → a = none)
    (hr : Bail.gateFrom gate count position out' log = .ok (res', log')) :
    ∃ res es, Bail.gateFrom gate count position out edits = .ok (res, es) ∧
      Twin marks es res' res := by
  induction count generalizing position out' out log edits with
  | zero =>
    obtain ⟨rfl, -⟩ := Prod.mk.inj (Except.ok.inj hr)
    exact ⟨out, edits, rfl, h⟩
  | succ count ih =>
    rw [Bail.gateFrom] at hr
    cases hv' : out'[position]? with
    | none =>
      rw [hv'] at hr
      obtain ⟨rfl, -⟩ := Prod.mk.inj (Except.ok.inj hr)
      exact ⟨out, edits, by rw [Bail.gateFrom, h.at_none hv'], h⟩
    | some v' =>
      obtain ⟨fields, v, rfl, hv, hfields, ht⟩ := h.at hv'
      rw [hv'] at hr
      change (Gate.inFrontOf gate (Fields.get? "if" fields) >>= fun gated =>
        Bail.gateFrom gate count (position + 1) (replay [] (out'.set position
          (.record (Fields.put "if" (.str gated) fields)))) (log ++ [])) = _ at hr
      obtain ⟨gated, hgated, hr⟩ := bind_eq_ok.mp hr
      rw [replay_nil] at hr
      obtain ⟨res, es, hres, htwin⟩ := ih (h.edit hm hv' hv Fields.textwise_put) hr
      refine ⟨res, es, ?_, htwin⟩
      rw [Bail.gateFrom, hv]
      simp only [Value.field?, Value.spread, hfields, bind, Except.bind,
        ht.get?_applyAll (a := "if") (by decide), hgated]
      exact hres

theorem textwise_withId : Textwise (withId n) where
  edits h := by
    rw [withId, h.get?_applyAll (by decide), withId]
    split_ifs
    · rfl
    · exact Fields.textwise_put.edits h
  mem hx := by
    unfold withId at hx
    split_ifs at hx
    · exact Or.inl hx
    · exact Fields.textwise_put.mem hx

theorem Twin.resolveOne (h : Twin marks edits out' out)
    (hm : marks.Pairwise fun a b => a = b → a = none)
    (hr : Bail.resolveOne n position out' log = .ok (res', log')) :
    ∃ res es, Bail.resolveOne n position out edits = .ok (res, es) ∧ Twin marks es res' res := by
  rw [Bail.resolveOne] at hr
  cases hv' : out'[position]? with
  | none =>
    rw [hv'] at hr
    obtain ⟨rfl, -⟩ := Prod.mk.inj (Except.ok.inj hr)
    exact ⟨out, edits, by rw [Bail.resolveOne, h.at_none hv'], h⟩
  | some v' =>
    obtain ⟨fields, v, rfl, hv, hfields, ht⟩ := h.at hv'
    have hid := textwise_withId (n := n)
    rw [hv'] at hr
    simp only [show (Value.record fields).fieldsOf = .ok fields from rfl, bind, Except.bind] at hr
    rw [← withId] at hr
    split at hr
    · next x condition hx hcondition =>
      obtain ⟨text, htext, hr⟩ := bind_eq_ok.mp hr
      obtain ⟨q, hq, hr⟩ := bind_eq_ok.mp hr
      rw [Value.withFields_record, replay_nil] at hr
      obtain ⟨res, es, hres, htwin⟩ :=
        (h.edit hm hv' hv (Fields.textwise_erase.comp hid)).gateFrom hm hr
      refine ⟨res, es, ?_, htwin⟩
      rw [Bail.resolveOne, hv]
      simp only [Value.fieldsOf, hfields, bind, Except.bind]
      rw [← withId, hid.edits ht, (hid.texts ht).get?_applyAll (by decide),
        (hid.texts ht).get?_applyAll (by decide), hx, hcondition]
      simp only [htext, hq]
      rw [← hid.edits ht, ← h.follows.length_eq]
      exact hres
    · cases hr

theorem Twin.resolveAt {positions : List Nat} (h : Twin marks edits out' out)
    (hm : marks.Pairwise fun a b => a = b → a = none)
    (hr : Bail.resolveAt n positions out' log = .ok (res', log')) :
    ∃ res es, Bail.resolveAt n positions out edits = .ok (res, es) ∧ Twin marks es res' res := by
  induction positions generalizing n out' out log edits with
  | nil =>
    obtain ⟨rfl, -⟩ := Prod.mk.inj (Except.ok.inj hr)
    exact ⟨out, edits, rfl, h⟩
  | cons position rest ih =>
    rw [Bail.resolveAt] at hr
    obtain ⟨⟨mid', log₁⟩, hone, hr⟩ := bind_eq_ok.mp hr
    obtain ⟨mid, es, hmid, htwin⟩ := h.resolveOne hm hone
    obtain ⟨res, es', hres, htwin'⟩ := ih htwin hr
    refine ⟨res, es', ?_, htwin'⟩
    rw [Bail.resolveAt, hmid]
    exact hres

theorem Twin.dropFrom (h : Twin marks edits out' out)
    (hm : marks.Pairwise fun a b => a = b → a = none)
    (hr : Bail.dropFrom count position out' log = .ok (res', log')) :
    ∃ res es, Bail.dropFrom count position out edits = .ok (res, es) ∧ Twin marks es res' res := by
  induction count generalizing position out' out log edits with
  | zero =>
    obtain ⟨rfl, -⟩ := Prod.mk.inj (Except.ok.inj hr)
    exact ⟨out, edits, rfl, h⟩
  | succ count ih =>
    rw [Bail.dropFrom] at hr
    cases hv' : out'[position]? with
    | none =>
      rw [hv'] at hr
      obtain ⟨rfl, -⟩ := Prod.mk.inj (Except.ok.inj hr)
      exact ⟨out, edits, by rw [Bail.dropFrom, h.at_none hv'], h⟩
    | some v' =>
      obtain ⟨fields, v, rfl, hv, hfields, ht⟩ := h.at hv'
      rw [hv'] at hr
      change Bail.dropFrom count (position + 1) (replay [] (out'.set position
        (.record (Fields.erase "bail_if" fields)))) (log ++ []) = _ at hr
      rw [replay_nil] at hr
      obtain ⟨res, es, hres, htwin⟩ := ih (h.edit hm hv' hv Fields.textwise_erase) hr
      refine ⟨res, es, ?_, htwin⟩
      rw [Bail.dropFrom, hv]
      simp only [Value.fieldsOf, hfields, bind, Except.bind]
      exact hres

theorem Twin.positionsFrom (h : List.Forall₂ (Follows edits) out' out) :
    Bail.positionsFrom i out = Bail.positionsFrom i out' := by
  induction h generalizing i with
  | nil => rfl
  | @cons v' v rest' rest hv _ ih =>
    obtain ⟨fields, rfl, hfields, ht⟩ := hv
    have hread : v.field? "bail_if" = (Value.record fields).field? "bail_if" := by
      rw [Value.field?, hfields]
      exact congrArg Except.ok (ht.get?_applyAll (by decide))
    rw [Bail.positionsFrom, Bail.positionsFrom, hread, ih]

/-- **Marks have no effect on what becomes of distinct steps**, apart from edits in their entries,
and only these steps are edited. -/
theorem Distinct.resolveAll (h : Distinct steps)
    (ht : ∀ v ∈ steps, ∀ fields, v.fields? = some fields → fields.TextsUnder gateKeys)
    (hr : Bail.resolveAll (steps.map detached) = .ok (res', log')) :
    ∃ res es, Bail.resolveAll steps = .ok (res, es) ∧ Twin (steps.map mark?) es res' res := by
  obtain ⟨positions, hpos, hr⟩ := bind_eq_ok.mp hr
  obtain ⟨⟨mid', log₁⟩, hat, hr⟩ := bind_eq_ok.mp hr
  have htwin := h.twin ht
  obtain ⟨mid, es, hmid, htwin₁⟩ := htwin.resolveAt h.apart hat
  obtain ⟨res, es', hres, htwin₂⟩ := htwin₁.dropFrom h.apart hr
  refine ⟨res, es', ?_, htwin₂⟩
  rw [← Twin.positionsFrom htwin.follows] at hpos
  rw [htwin₁.follows.length_eq] at hres
  rw [Bail.resolveAll, hpos]
  simp only [bind, Except.bind, hmid]
  exact hres

end Bail

end StepLoom
