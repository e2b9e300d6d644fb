import StepLoom.Proofs.Compile.Bails
import StepLoom.Proofs.Sharing.Graph

/-!
# The steps of a graph and of its copy

The blocks of nodes that are copies hold steps that are copies, and bail conditions are resolved
alike among them. All these steps stand alone, those of setups because a block copies them.
-/

namespace StepLoom

open StepLoom.Graph (LoneCopies Unedited)

/-! ## Gates -/

variable {v w : Value}

theorem Gate.inFrontOf_copies (gate : String) {a b : Option Value}
    (h : Option.Rel Value.Copies a b) : inFrontOf gate a = inFrontOf gate b := by
  have hgiven := Value.Copies.given? h
  unfold inFrontOf
  generalize Value.given? a = x, Value.given? b = y at hgiven ⊢
  cases hgiven with
  | none => rfl
  | some h =>
    dsimp only
    rw [h.text]

theorem Gate.guardWith_alike (c : Option String) (h : LoneCopies v w) :
    Alike LoneCopies (guardWith c v) (guardWith c w) := by
  unfold guardWith
  split
  · exact .ok h
  · refine h.copies.field?.bind fun a b hif => ?_
    rw [Gate.inFrontOf_copies _ hif]
    refine alike_bind_same fun gate => ?_
    exact h.copies.spread.bind fun fs gs hfs =>
      .ok (Graph.loneCopies_record (hfs.put (Value.copies_scalar _)))

/-! ## Blocks -/

namespace Block

theorem nameText_copies {a b : Option Value} (h : Option.Rel Value.Copies a b) :
    nameText a = nameText b := by
  have hgiven := Value.Copies.given? h
  unfold nameText
  generalize Value.given? a = x, Value.given? b = y at hgiven ⊢
  cases hgiven with
  | none => rfl
  | some h => exact h.text

/-- A mapping in which nothing is shared and which the tool made itself. -/
theorem loneCopies_self {fields : Fields} (ha : Value.fieldsAreAcyclic fields)
    (he : Value.remarkFields (fun _ => none) fields = fields) :
    LoneCopies (.record fields) (.record fields) :=
  Graph.loneCopies_record (Value.fieldsCopies_iff.mpr ⟨ha, he⟩)

/-- The steps of a setup are copied, so they stand alone even if the setup's do not. -/
theorem ofSetup_alike (name : String) (h : Value.Copies v w) (c : Option String) :
    Alike (List.Forall₂ LoneCopies) (ofSetup name v c) (ofSetup name w c) := by
  refine (Setup.copies_steps h).bind fun items items' hitems => ?_
  rcases hitems with _ | ⟨hv, _ | ⟨hv', hrest⟩⟩
  · exact .ok .nil
  · refine hv.field?.bind fun a b hname => ?_
    rw [nameText_copies hname]
    refine alike_bind_same fun label => ?_
    refine hv.spread.bind fun fs gs hfs => ?_
    refine (Gate.guardWith_alike c ?_).bind fun _ _ h => .ok (.cons h .nil)
    exact Graph.loneCopies_record (hfs.put (Value.copies_scalar _))
  · have hcopies := alike_mapM (.cons hv (.cons hv' hrest)) fun s s' hs =>
      hs.asFields.bind fun _ _ hfs => .ok (Graph.loneCopies_record hfs)
    refine hcopies.bind fun copies copies' hcopies => ?_
    refine alike_mapM ?_ fun _ _ h => Gate.guardWith_alike c h
    exact .cons (loneCopies_self rfl rfl)
      (List.rel_append hcopies (.cons (loneCopies_self rfl rfl) .nil))

open Registry (Claiming)

variable {n n' : Node} {g g' : Graph}

theorem check_alike (id : String) (patterns : List String) :
    Alike Value.FieldsCopies (Check.step id patterns) (Check.step id patterns) := by
  refine alike_bind_same fun regexes => ?_
  exact .ok (Value.fieldsCopies_iff.mpr ⟨rfl, rfl⟩)

theorem ofNode_abreast (h : n.Copies n') (outs : List (String × String)) :
    Abreast Eq (fun p q => List.Forall₂ LoneCopies p.1 q.1 ∧ p.2 = q.2) (ofNode n outs)
      (ofNode n' outs) := by
  unfold ofNode
  rw [h.id, h.pathDeps, h.kind]
  refine (abreast_self _).bind_eq fun c => ?_
  cases hk : n'.kind with
  | step =>
    have hstep : LoneCopies n.content n'.content := ⟨h.content, h.alone (h.kind.trans hk)⟩
    exact (abreast_liftM (Gate.guardWith_alike c hstep)).bind fun _ _ h =>
      abreast_pure ⟨.cons h .nil, rfl⟩
  | setup =>
    exact (abreast_liftM (ofSetup_alike _ h.content c)).bind fun _ _ h => abreast_pure ⟨h, rfl⟩
  | paths =>
    have hpatterns : Alike Eq (n.content.members >>= Value.strings)
        (n'.content.members >>= Value.strings) :=
      h.content.members.bind fun _ _ h => alike_eq.mpr (Value.Copies.strings h)
    refine (abreast_liftM hpatterns).bind_eq fun patterns => ?_
    refine (abreast_self _).bind_eq fun id => ?_
    refine (abreast_liftM (check_alike id patterns)).bind fun check check' hcheck => ?_
    refine (abreast_liftM (Gate.guardWith_alike c (Graph.loneCopies_record hcheck))).bind
      fun _ _ h => abreast_pure ⟨.cons h .nil, rfl⟩

theorem joinFrom_abreast (h : g.Copies g') (ids : List String) (outs : List (String × String)) :
    Abreast Eq (List.Forall₂ LoneCopies) (joinFrom g outs ids) (joinFrom g' outs ids) := by
  induction ids generalizing outs with
  | nil => exact abreast_pure .nil
  | cons x rest ih =>
    have hfind := h.find? x
    unfold joinFrom
    generalize g.find? x = a, g'.find? x = b at hfind ⊢
    cases hfind with
    | none => exact abreast_throw _
    | some hn =>
      refine (ofNode_abreast hn outs).bind fun p q ⟨hsteps, houts⟩ => ?_
      obtain ⟨steps, outs⟩ := p
      obtain ⟨steps', outs'⟩ := q
      obtain rfl : outs = outs' := houts
      exact (ih outs).bind fun _ _ hmore => abreast_pure (List.rel_append hsteps hmore)

end Block

/-! ## Bail conditions -/

namespace Bail

variable {vs ws : List Value}

theorem gateFrom_alike (gate : String) (count position : Nat) (h : List.Forall₂ LoneCopies vs ws) :
    Alike (Unedited (List.Forall₂ LoneCopies)) (gateFrom gate count position vs [])
      (gateFrom gate count position ws []) := by
  induction count generalizing position vs ws with
  | zero => exact .ok (.intro h)
  | succ count ih =>
    have hget := forall₂_rel_getElem? h position
    unfold gateFrom
    generalize vs[position]? = a, ws[position]? = b at hget ⊢
    cases hget with
    | none => exact .ok (.intro h)
    | some hstep =>
      refine hstep.copies.field?.bind fun a b hif => ?_
      rw [Gate.inFrontOf_copies _ hif]
      refine alike_bind_same fun gated => ?_
      refine hstep.copies.spread.bind fun fs gs hfs => ?_
      rw [hstep.alone.withFields, hstep.copies.standsAlone.withFields]
      dsimp only
      rw [replay_nil, replay_nil]
      refine ih (position + 1) (forall₂_set h ?_ position)
      exact Graph.loneCopies_record (hfs.put (Value.copies_scalar _))

theorem withId_copies (n : Nat) {fs gs : Fields} (h : Value.FieldsCopies fs gs) :
    Value.FieldsCopies (withId n fs) (withId n gs) := by
  have hgiven := Value.Copies.given? (h.get? "id")
  unfold withId
  generalize Value.given? (Fields.get? "id" fs) = a, Value.given? (Fields.get? "id" gs) = b
    at hgiven ⊢
  cases hgiven with
  | none => exact h.put (Value.copies_scalar _)
  | some _ => exact h

theorem qualify_copies (id : String) {v w : Value} (h : Value.Copies v w) :
    qualify id v = qualify id w := by
  unfold qualify
  rw [h.string]

theorem resolveOne_alike (n position : Nat) (h : List.Forall₂ LoneCopies vs ws) :
    Alike (Unedited (List.Forall₂ LoneCopies)) (resolveOne n position vs [])
      (resolveOne n position ws []) := by
  have hget := forall₂_rel_getElem? h position
  unfold resolveOne
  rw [h.length_eq]
  generalize vs[position]? = a, ws[position]? = b at hget ⊢
  cases hget with
  | none => exact .ok (.intro h)
  | @some v w hstep =>
    refine hstep.copies.fieldsOf.bind fun fs gs hfs => ?_
    dsimp only
    rw [← withId, ← withId, hstep.alone.withFields, hstep.copies.standsAlone.withFields,
      replay_nil, replay_nil]
    have hnamed := withId_copies n hfs
    generalize withId n fs = fs, withId n gs = gs at hnamed ⊢
    have hid := hnamed.get? "id"
    have hbail := hnamed.get? "bail_if"
    generalize Fields.get? "id" fs = a, Fields.get? "id" gs = b at hid ⊢
    generalize Fields.get? "bail_if" fs = a', Fields.get? "bail_if" gs = b' at hbail ⊢
    cases hid with
    | none => exact .error _
    | some hid =>
      cases hbail with
      | none => exact .error _
      | some hcondition =>
        dsimp only
        rw [hid.text]
        refine alike_bind_same fun text => ?_
        rw [qualify_copies text hcondition]
        refine alike_bind_same fun condition => ?_
        exact gateFrom_alike _ _ _
          (forall₂_set h (Graph.loneCopies_record hnamed.erase) position)

theorem resolveAt_alike (n : Nat) (positions : List Nat) (h : List.Forall₂ LoneCopies vs ws) :
    Alike (Unedited (List.Forall₂ LoneCopies)) (resolveAt n positions vs [])
      (resolveAt n positions ws []) := by
  induction positions generalizing n vs ws with
  | nil => exact .ok (.intro h)
  | cons position rest ih =>
    refine (resolveOne_alike n position h).bind fun _ _ ⟨hsteps⟩ => ?_
    exact ih (n + 1) hsteps

theorem positionsFrom_copies (i : Nat) (h : List.Forall₂ LoneCopies vs ws) :
    positionsFrom i vs = positionsFrom i ws := by
  induction h generalizing i with
  | nil => rfl
  | cons hstep _ ih =>
    refine alike_eq.mp ?_
    unfold positionsFrom
    refine hstep.copies.field?.bind fun a b hbail => ?_
    rw [ih (i + 1)]
    refine alike_bind_same fun more => ?_
    have hgiven := Value.Copies.given? hbail
    generalize Value.given? a = x, Value.given? b = y at hgiven ⊢
    cases hgiven <;> exact .ok rfl

theorem dropFrom_alike (count position : Nat) (h : List.Forall₂ LoneCopies vs ws) :
    Alike (Unedited (List.Forall₂ LoneCopies)) (dropFrom count position vs [])
      (dropFrom count position ws []) := by
  induction count generalizing position vs ws with
  | zero => exact .ok (.intro h)
  | succ count ih =>
    have hget := forall₂_rel_getElem? h position
    unfold dropFrom
    generalize vs[position]? = a, ws[position]? = b at hget ⊢
    cases hget with
    | none => exact .ok (.intro h)
    | some hstep =>
      refine hstep.copies.fieldsOf.bind fun fs gs hfs => ?_
      rw [hstep.alone.withFields, hstep.copies.standsAlone.withFields]
      dsimp only
      rw [replay_nil, replay_nil]
      exact ih (position + 1) (forall₂_set h (Graph.loneCopies_record hfs.erase) position)

/-- **Bail conditions are resolved alike** among steps that stand alone. -/
theorem resolveAll_alike (h : List.Forall₂ LoneCopies vs ws) :
    Alike (Unedited (List.Forall₂ LoneCopies)) (resolveAll vs) (resolveAll ws) := by
  unfold resolveAll
  rw [positionsFrom_copies 0 h]
  refine alike_bind_same fun positions => ?_
  refine (resolveAt_alike 1 positions h).bind fun _ _ ⟨hsteps⟩ => ?_
  dsimp only at hsteps ⊢
  rw [hsteps.length_eq]
  exact dropFrom_alike _ 0 hsteps

end Bail

end StepLoom
