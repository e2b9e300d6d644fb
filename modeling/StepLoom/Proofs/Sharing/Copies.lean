import StepLoom.Proofs.Sharing.Unshare

/-!
# A value and its unshared form

A value without cycles and its unshared form are *copies* of the same data (`Value.Copies`).
Whatever is read from the one is read from the other, and what is taken out of them are again
copies. There is one lemma for each function that reads values.
-/

namespace StepLoom

namespace Value

/-- The second value is the first one, which has no cycles, without shared mappings. -/
structure Copies (v w : Value) : Prop where
  acyclic : v.isAcyclic
  eq : v.unshare = w

/-- Fields with the same keys and copies under them. -/
def FieldsCopies (fs gs : Fields) : Prop :=
  List.Forall₂ (fun f g => f.1 = g.1 ∧ Copies f.2 g.2) fs gs

/-- The forms of copies. -/
inductive Copies.Shape : Value → Value → Prop
  | scalar (s : Scalar) : Shape (.scalar s) (.scalar s)
  | list {vs ws : List Value} (h : List.Forall₂ Copies vs ws) : Shape (.list vs) (.list ws)
  | pair {a b c d : Value} (ha : Copies a c) (hb : Copies b d) : Shape (.pair a b) (.pair c d)
  | set (members : List Scalar) : Shape (.set members) (.set members)
  | map (m : Option Nat) {fs gs : Fields} (h : FieldsCopies fs gs) :
      Shape (.map m fs) (.map none gs)

variable {v w x y : Value} {vs ws : List Value} {a b : Option Value} {fs gs fs' gs' : Fields}
  {key : Scalar}

theorem forall₂_copies_iff : List.Forall₂ Copies vs ws ↔
    itemsAreAcyclic vs ∧ remarkItems (fun _ => none) vs = ws := by
  induction vs generalizing ws with
  | nil => simp [itemsAreAcyclic, remarkItems, eq_comm]
  | cons v rest ih =>
    rw [List.forall₂_cons_left_iff, itemsAreAcyclic, Bool.and_eq_true, remarkItems]
    constructor
    · rintro ⟨w, ws, ⟨hv, rfl⟩, hrest, rfl⟩
      obtain ⟨hacyclic, rfl⟩ := ih.mp hrest
      exact ⟨⟨hv, hacyclic⟩, rfl⟩
    · rintro ⟨⟨hv, hacyclic⟩, rfl⟩
      exact ⟨_, _, ⟨hv, rfl⟩, ih.mpr ⟨hacyclic, rfl⟩, rfl⟩

theorem fieldsCopies_iff : FieldsCopies fs gs ↔
    fieldsAreAcyclic fs ∧ remarkFields (fun _ => none) fs = gs := by
  induction fs generalizing gs with
  | nil => simp [FieldsCopies, fieldsAreAcyclic, remarkFields, eq_comm]
  | cons field rest ih =>
    rw [FieldsCopies, List.forall₂_cons_left_iff, fieldsAreAcyclic, Bool.and_eq_true, remarkFields]
    constructor
    · rintro ⟨⟨k, w⟩, gs, ⟨rfl, hv, rfl⟩, hrest, rfl⟩
      obtain ⟨hacyclic, rfl⟩ := ih.mp hrest
      exact ⟨⟨hv, hacyclic⟩, rfl⟩
    · rintro ⟨⟨hv, hacyclic⟩, rfl⟩
      exact ⟨(field.1, field.2.unshare), _, ⟨rfl, hv, rfl⟩, ih.mpr ⟨hacyclic, rfl⟩, rfl⟩

theorem Copies.shape (h : Copies v w) : Copies.Shape v w := by
  obtain ⟨hv, rfl⟩ := h
  cases v with
  | scalar s => exact .scalar s
  | list items => exact .list (forall₂_copies_iff.mpr ⟨hv, rfl⟩)
  | pair a b =>
    rw [isAcyclic, Bool.and_eq_true] at hv
    exact .pair ⟨hv.1, rfl⟩ ⟨hv.2, rfl⟩
  | set members => exact .set members
  | map m fields =>
    rw [isAcyclic, Bool.and_eq_true] at hv
    rw [unshare, remark, show (m.bind fun _ => (none : Option Nat)) = none by cases m <;> rfl]
    exact .map m (fieldsCopies_iff.mpr ⟨hv.1, rfl⟩)
  | ring m items => cases hv
  | again m => cases hv

theorem Copies.unroll (h : Copies v w) : v.unroll = v ∧ w.unroll = w := by
  refine ⟨unroll_of_acyclic h.acyclic, ?_⟩
  cases h.shape <;> rfl

/-! ## Building copies -/

theorem copies_scalar (s : Scalar) : Copies (.scalar s) (.scalar s) := ⟨rfl, rfl⟩

theorem copies_ofKey : ∀ k : Scalar, Copies (ofKey k) (ofKey k)
  | .pair a b => by
    obtain ⟨ha, ha'⟩ := copies_ofKey a
    obtain ⟨hb, hb'⟩ := copies_ofKey b
    refine ⟨?_, ?_⟩
    · rw [ofKey, isAcyclic, ha, hb]
      rfl
    · rw [ofKey, unshare, remark, ← unshare, ← unshare, ha', hb']
  | .null | .bool _ | .int _ | .float _ | .str _ | .date _ | .timestamp _ | .bytes _ => ⟨rfl, rfl⟩

theorem copies_list (h : List.Forall₂ Copies vs ws) : Copies (.list vs) (.list ws) := by
  obtain ⟨hacyclic, rfl⟩ := forall₂_copies_iff.mp h
  exact ⟨hacyclic, rfl⟩

theorem copies_record (h : FieldsCopies fs gs) : Copies (.record fs) (.record gs) := by
  obtain ⟨hacyclic, rfl⟩ := fieldsCopies_iff.mp h
  refine ⟨?_, rfl⟩
  rw [isAcyclic, hacyclic]
  rfl

theorem copies_scalars {α : Type} (f : α → Scalar) (xs : List α) :
    List.Forall₂ Copies (xs.map fun x => .scalar (f x)) (xs.map fun x => .scalar (f x)) := by
  induction xs with
  | nil => exact .nil
  | cons x rest ih => exact .cons (copies_scalar _) ih

theorem copies_ofKeys (ks : List Scalar) : List.Forall₂ Copies (ks.map ofKey) (ks.map ofKey) := by
  induction ks with
  | nil => exact .nil
  | cons k rest ih => exact .cons (copies_ofKey k) ih

/-! ## Fields -/

namespace FieldsCopies

theorem get? (h : FieldsCopies fs gs) (key : Scalar) :
    Option.Rel Copies (Fields.get? key fs) (Fields.get? key gs) := by
  induction h with
  | nil => exact .none
  | @cons f g _ _ hfg _ ih =>
    obtain ⟨k, v⟩ := f
    obtain ⟨k', w⟩ := g
    obtain ⟨rfl, hvw⟩ := hfg
    rw [Fields.get?, Fields.get?]
    split_ifs
    · exact .some hvw
    · exact ih

theorem has (h : FieldsCopies fs gs) : Fields.has key fs = Fields.has key gs := by
  have hrel : Option.Rel Copies (Fields.get? key fs) (Fields.get? key gs) := h.get? key
  unfold Fields.has
  generalize Fields.get? key fs = a, Fields.get? key gs = b at hrel ⊢
  cases hrel <;> rfl

theorem put (h : FieldsCopies fs gs) (hv : Copies v w) :
    FieldsCopies (Fields.put key v fs) (Fields.put key w gs) := by
  induction h with
  | nil => exact .cons ⟨rfl, hv⟩ .nil
  | @cons f g _ _ hfg hrest ih =>
    obtain ⟨k, x⟩ := f
    obtain ⟨k', y⟩ := g
    obtain ⟨rfl, hxy⟩ := hfg
    rw [Fields.put, Fields.put]
    split_ifs
    · exact .cons ⟨rfl, hv⟩ hrest
    · exact .cons ⟨rfl, hxy⟩ ih

theorem erase (h : FieldsCopies fs gs) :
    FieldsCopies (Fields.erase key fs) (Fields.erase key gs) := by
  induction h with
  | nil => exact .nil
  | @cons f g _ _ hfg hrest ih =>
    obtain ⟨k, x⟩ := f
    obtain ⟨k', y⟩ := g
    obtain ⟨rfl, hxy⟩ := hfg
    rw [Fields.erase, Fields.erase]
    split_ifs
    · exact hrest
    · exact .cons ⟨rfl, hxy⟩ ih

theorem eraseAll (keys : List Scalar) (h : FieldsCopies fs gs) :
    FieldsCopies (keys.foldl (fun fs k => Fields.erase k fs) fs)
      (keys.foldl (fun fs k => Fields.erase k fs) gs) := by
  induction keys generalizing fs gs with
  | nil => exact h
  | cons k rest ih => exact ih h.erase

theorem putAll (h : FieldsCopies fs gs) (h' : FieldsCopies fs' gs') :
    FieldsCopies (Fields.putAll fs fs') (Fields.putAll gs gs') := by
  induction h' generalizing fs gs with
  | nil => exact h
  | @cons f g _ _ hfg _ ih =>
    obtain ⟨k, v⟩ := f
    obtain ⟨k', w⟩ := g
    obtain ⟨rfl, hvw⟩ := hfg
    exact ih (h.put hvw)

theorem keys (h : FieldsCopies fs gs) : Fields.keys fs = Fields.keys gs := by
  induction h with
  | nil => rfl
  | @cons f g _ _ hfg _ ih =>
    obtain ⟨k, v⟩ := f
    obtain ⟨k', w⟩ := g
    obtain ⟨rfl, -⟩ := hfg
    exact congrArg (ofKey k :: ·) ih

end FieldsCopies

/-! ## What is read alike -/

theorem Copies.isBlank (h : Copies v w) : v.isBlank = w.isBlank := by
  rw [← h.eq]
  exact isBlank_remark.symm

theorem Copies.key? (h : Copies v w) : v.key? = w.key? := by
  rw [← h.eq]
  exact (key?_remark v).symm

theorem Copies.equal (h : Copies v w) (h' : Copies x y) : v.equal x = w.equal y := by
  rw [← h.eq, ← h'.eq]
  exact (equal_remark v x).symm

theorem Copies.text (h : Copies v w) : v.text = w.text := by
  have htext : w.hasText = v.hasText := by
    rw [← h.eq]
    exact hasText_remark v
  have hspelling : w.spelling [] = v.spelling [] := by
    rw [← h.eq]
    exact spelling_unshare [] [] v h.acyclic fun _ _ => rfl
  have hliteral : v.literal = w.literal := by rw [literal, literal, htext, hspelling]
  cases h.shape <;> first | rfl | exact hliteral

theorem Copies.string (h : Copies v w) : v.string = w.string := by cases h.shape <;> rfl

theorem Copies.strings (h : List.Forall₂ Copies vs ws) : strings vs = strings ws := by
  induction h with
  | nil => rfl
  | cons hv _ ih => rw [Value.strings, Value.strings, hv.string, ih]

/-! ## What is taken out -/

theorem Copies.given? (h : Option.Rel Copies a b) : Option.Rel Copies (given? a) (given? b) := by
  cases h with
  | none => exact .none
  | some h =>
    unfold Value.given?
    rw [Option.filter_some, Option.filter_some, h.isBlank]
    split_ifs
    · exact .some h
    · exact .none

theorem Copies.fields? (h : Copies v w) : Option.Rel FieldsCopies v.fields? w.fields? := by
  unfold Value.fields?
  rw [h.unroll.1, h.unroll.2]
  cases h.shape with
  | map m hfs => exact .some hfs
  | _ => exact .none

theorem Copies.members (h : Copies v w) : Alike (List.Forall₂ Copies) v.members w.members := by
  unfold Value.members
  rw [h.unroll.1, h.unroll.2]
  cases h.shape with
  | scalar s =>
    cases s with
    | str s => exact .ok (copies_scalars _ _)
    | bytes bs => exact .ok (copies_scalars _ _)
    | _ => exact .error _
  | list hvs => exact .ok hvs
  | pair ha hb => exact .ok (.cons ha (.cons hb .nil))
  | set members => exact .ok (copies_ofKeys members)
  | @map m fs gs hfs =>
    dsimp only
    rw [hfs.keys, show Fields.keys gs = (gs.map Prod.fst).map ofKey by
      rw [List.map_map]
      rfl]
    exact .ok (copies_ofKeys _)

theorem Copies.membersOrNone (h : Option.Rel Copies a b) :
    Alike (List.Forall₂ Copies) (membersOrNone a) (membersOrNone b) := by
  have hg := Copies.given? h
  unfold Value.membersOrNone
  generalize Value.given? a = x, Value.given? b = y at hg ⊢
  cases hg with
  | none => exact .ok .nil
  | some h => exact h.members

theorem Copies.oneOrMany (h : Option.Rel Copies a b) :
    Alike (List.Forall₂ Copies) (oneOrMany a) (oneOrMany b) := by
  have hg := Copies.given? h
  unfold Value.oneOrMany
  generalize Value.given? a = x, Value.given? b = y at hg ⊢
  cases hg with
  | none => exact .ok .nil
  | some h =>
    have hmembers := h.members
    cases h.shape with
    | scalar s =>
      cases s with
      | str s => exact .ok (.cons (copies_scalar _) .nil)
      | _ => exact hmembers
    | _ => exact hmembers

theorem Copies.fieldsOf (h : Copies v w) : Alike FieldsCopies v.fieldsOf w.fieldsOf := by
  have hfields := h.fields?
  unfold Value.fieldsOf
  generalize v.fields? = a, w.fields? = b at hfields ⊢
  cases hfields with
  | none => exact .error _
  | some h => exact .ok h

theorem Copies.spread (h : Copies v w) : Alike FieldsCopies v.spread w.spread := by
  have hfields := h.fields?
  unfold Value.spread
  generalize v.fields? = a, w.fields? = b at hfields ⊢
  cases hfields with
  | none => exact .error _
  | some h => exact .ok h

theorem Copies.field? (h : Copies v w) :
    Alike (Option.Rel Copies) (v.field? key) (w.field? key) := by
  have hfields := h.fields?
  unfold Value.field?
  generalize v.fields? = a, w.fields? = b at hfields ⊢
  cases hfields with
  | none => exact .error _
  | some h => exact .ok (h.get? key)

theorem Copies.take (h : Copies v w) : Alike (fun p q => Option.Rel Copies p.1 q.1 ∧
    FieldsCopies p.2 q.2) (v.take key) (w.take key) := by
  unfold Value.take
  rw [h.unroll.1, h.unroll.2]
  cases h.shape with
  | map m hfs => exact .ok ⟨hfs.get? key, hfs.erase⟩
  | _ => exact .error _

theorem Copies.positioned? (h : Copies v w) :
    Option.Rel (List.Forall₂ Copies) v.positioned? w.positioned? := by
  unfold Value.positioned?
  rw [h.unroll.1, h.unroll.2]
  cases h.shape with
  | scalar s =>
    cases s with
    | str s => exact .some (copies_scalars _ _)
    | bytes bs => exact .some (copies_scalars _ _)
    | _ => exact .none
  | list hvs => exact .some hvs
  | pair ha hb => exact .some (.cons ha (.cons hb .nil))
  | _ => exact .none

theorem Copies.itemAt (h : List.Forall₂ Copies vs ws) (n : Int) :
    Alike Copies (itemAt vs n) (itemAt ws n) := by
  unfold Value.itemAt
  rw [h.length_eq]
  generalize (if n < 0 then n + (ws.length : Int) else n) = position
  dsimp only
  split_ifs
  · exact .error _
  · have hget := forall₂_rel_getElem? h position.toNat
    generalize vs[position.toNat]? = a, ws[position.toNat]? = b at hget ⊢
    cases hget with
    | none => exact .error _
    | some h => exact .ok h

/-- What one container holds under a key, the other holds too. -/
theorem Copies.lookUp (h : Copies v w) (h' : Copies x y) :
    Alike Copies (v.lookUp x) (w.lookUp y) := by
  have hfields := h.fields?
  have hpositions := h.positioned?
  have hkey := h'.key?
  unfold Value.lookUp
  generalize v.fields? = a, w.fields? = b at hfields ⊢
  generalize v.positioned? = a', w.positioned? = b' at hpositions ⊢
  cases hfields with
  | @some fs gs hfs =>
    dsimp only
    rw [hkey]
    cases y.key? with
    | none => exact .error _
    | some k =>
      dsimp only
      have hget : Option.Rel Copies (Fields.get? k fs) (Fields.get? k gs) := hfs.get? k
      generalize Fields.get? k fs = a, Fields.get? k gs = b at hget ⊢
      cases hget with
      | none => exact .error _
      | some h => exact .ok h
  | none =>
    cases hpositions with
    | none => exact .error _
    | some hitems =>
      cases h'.shape with
      | scalar s =>
        cases s with
        | int n => exact itemAt hitems n
        | bool b => exact itemAt hitems _
        | _ => exact .error _
      | _ => exact .error _

theorem Copies.contains (h : Copies v w) (h' : Copies x y) : v.contains x = w.contains y := by
  have hkey := h'.key?
  unfold Value.contains
  rw [h.unroll.1, h.unroll.2]
  cases h.shape with
  | scalar s =>
    cases s with
    | str s =>
      dsimp only
      rw [h'.string]
    | bytes bs => cases h'.shape <;> rfl
    | _ => rfl
  | list hvs =>
    refine congrArg Except.ok ?_
    clear h
    induction hvs with
    | nil => rfl
    | cons hv _ ih => rw [List.any_cons, List.any_cons, hv.equal h', ih]
  | pair ha hb =>
    dsimp only
    rw [ha.equal h', hb.equal h']
  | set members =>
    dsimp only
    rw [hkey]
    generalize y.key? = k
    cases h'.shape <;> cases k <;> rfl
  | map m hfs =>
    dsimp only
    rw [hkey]
    cases y.key? with
    | none => rfl
    | some k =>
      dsimp only
      rw [hfs.has]

/-- Pairs read as fields. -/
theorem Copies.pairsFrom (h : List.Forall₂ Copies vs ws) (i : Nat) :
    Alike FieldsCopies (pairsFrom i vs) (pairsFrom i ws) := by
  induction h generalizing i with
  | nil => exact .ok .nil
  | cons hv _ ih =>
    rw [Value.pairsFrom, Value.pairsFrom]
    refine hv.members.bind fun parts parts' hparts => ?_
    rcases hparts with _ | ⟨hk, _ | ⟨hx, _ | ⟨hy, hmore⟩⟩⟩
    · exact .error _
    · exact .error _
    · dsimp only
      rw [hk.key?]
      cases Value.key? _ with
      | none => exact .error _
      | some k => exact (ih (i + 1)).bind fun _ _ hfs => .ok (.cons ⟨rfl, hx⟩ hfs)
    · dsimp only [List.length_cons]
      rw [hmore.length_eq]
      exact .error _

theorem Copies.asFields (h : Copies v w) : Alike FieldsCopies v.asFields w.asFields := by
  have hfields := h.fields?
  unfold Value.asFields
  generalize v.fields? = a, w.fields? = b at hfields ⊢
  cases hfields with
  | none =>
    refine h.members.bind fun _ _ hvs => (pairsFrom hvs 0).bind fun _ _ hfs => ?_
    exact .ok (FieldsCopies.putAll .nil hfs)
  | some h => exact .ok h

end Value

/-! ## Setups -/

namespace Setup

open Value

variable {v w table table' name name' : Value}

theorem copies_steps (h : Copies v w) : Alike (List.Forall₂ Copies) (steps v) (steps w) := by
  have hsteps : Alike (List.Forall₂ Copies) (v.field? "steps" >>= Value.membersOrNone)
      (w.field? "steps" >>= Value.membersOrNone) :=
    h.field?.bind fun _ _ h => Copies.membersOrNone h
  unfold steps
  rw [h.unroll.1, h.unroll.2]
  cases h.shape with
  | scalar s =>
    cases s with
    | null => exact .ok .nil
    | _ => exact hsteps
  | list hvs => exact .ok hvs
  | _ => exact hsteps

theorem copies_find? (ht : Copies table table') (hn : Copies name name') :
    Alike (Option.Rel Copies) (find? table name) (find? table' name') := by
  unfold find?
  rw [ht.contains hn]
  refine alike_bind_same fun found => ?_
  split_ifs
  · exact (ht.lookUp hn).bind fun _ _ h => .ok (.some h)
  · exact .ok .none

theorem copies_listed (h : Copies v w) : listed v = listed w := by
  have hfields := h.fields?
  unfold listed
  generalize v.fields? = a, w.fields? = b at hfields ⊢
  cases hfields with
  | none => rfl
  | @some fs gs hfs =>
    have hnames := Copies.oneOrMany (hfs.get? "setup")
    dsimp only
    generalize Value.oneOrMany (Fields.get? "setup" fs) = x,
      Value.oneOrMany (Fields.get? "setup" gs) = y at hnames ⊢
    cases hnames with
    | ok h => exact h.length_eq
    | error e => rfl

theorem copies_referenceCount (h : Copies table table') :
    referenceCount table = referenceCount table' := by
  unfold referenceCount
  rw [h.unroll.1, h.unroll.2]
  cases h.shape with
  | list hvs =>
    dsimp only
    clear h
    induction hvs with
    | nil => rfl
    | cons hv _ ih => rw [List.map_cons, List.map_cons, List.foldr_cons, List.foldr_cons,
        copies_listed hv, ih]
  | map m hfs =>
    dsimp only
    clear h
    induction hfs with
    | nil => rfl
    | cons hfg _ ih => rw [List.map_cons, List.map_cons, List.foldr_cons, List.foldr_cons,
        copies_listed hfg.2, ih]
  | _ => rfl

end Setup

end StepLoom
