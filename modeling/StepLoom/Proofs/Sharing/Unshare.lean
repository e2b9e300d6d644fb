import StepLoom.Proofs.Fields
import StepLoom.Proofs.TwoRuns
import StepLoom.Setup
import StepLoom.Value.Display

/-!
# Values without shared mappings

`Value.unshare` writes a shared mapping as a mapping of its own at each of its places. Most
functions on values do not see marks at all. The others, those that unroll a value or write it as
text, see them in cycles only. `Value.isAcyclic` says that a value has none.
-/

namespace StepLoom

namespace Value

/-- The value with a mapping of its own at each place of a shared one. -/
def unshare (v : Value) : Value := v.remark fun _ => none

mutual

/-- Nothing in the value is a part of itself. -/
def isAcyclic : Value → Bool
  | .scalar _ | .set _ => true
  | .list items => itemsAreAcyclic items
  | .pair a b => a.isAcyclic && b.isAcyclic
  | .map m fields => fieldsAreAcyclic fields && m.all fun k => k ∉ marksOfFields fields
  | .ring .. | .again _ => false

def itemsAreAcyclic : List Value → Bool
  | [] => true
  | v :: rest => v.isAcyclic && itemsAreAcyclic rest

def fieldsAreAcyclic : List (Scalar × Value) → Bool
  | [] => true
  | (_, v) :: rest => v.isAcyclic && fieldsAreAcyclic rest

end

variable {f : Nat → Option Nat} {m : Option Nat} {v w : Value} {vs ws items : List Value}
  {fields fs gs : Fields} {key : Scalar}

theorem remarkItems_eq : remarkItems f items = items.map (remark f) := by
  induction items with
  | nil => rfl
  | cons v rest ih => rw [remarkItems, ih, List.map_cons]

theorem remarkFields_eq : remarkFields f fields = fields.map fun (k, v) => (k, v.remark f) := by
  induction fields with
  | nil => rfl
  | cons field rest ih => rw [remarkFields, ih, List.map_cons]

/-! ## Reading that does not see marks -/

theorem get?_remarkFields :
    Fields.get? key (remarkFields f fields) = (Fields.get? key fields).map (remark f) := by
  induction fields with
  | nil => rfl
  | cons field rest ih =>
    rw [remarkFields, Fields.get?, Fields.get?]
    split_ifs
    · rfl
    · exact ih

theorem remarkFields_put : remarkFields f (Fields.put key v fields) =
    Fields.put key (v.remark f) (remarkFields f fields) := by
  induction fields with
  | nil => rfl
  | cons field rest ih =>
    rw [remarkFields, Fields.put, Fields.put]
    split_ifs
    · rfl
    · rw [remarkFields, ih]

theorem isBlank_remark : (v.remark f).isBlank = v.isBlank := by
  cases v <;> simp [remark, isBlank, remarkItems_eq, remarkFields_eq]

theorem key?_remark : ∀ v : Value, (v.remark f).key? = v.key?
  | .pair a b => by rw [remark, key?, key?, key?_remark a, key?_remark b]
  | .scalar _ | .list _ | .set _ | .map .. | .ring .. | .again _ => rfl

mutual

theorem equal_remark : ∀ v w : Value, (v.remark f).equal (w.remark f) = v.equal w
  | .list as, w => by
    cases w <;> simp only [remark, equal]
    exact equalItems_remark as _
  | .pair a b, w => by
    cases w <;> simp only [remark, equal]
    rw [equal_remark a, equal_remark b]
  | .map m as, w => by
    cases w <;> simp only [remark, equal]
    rw [equalFields_remark as]
    simp [remarkFields_eq]
  | .scalar _, w => by cases w <;> simp only [remark, equal]
  | .set _, w => by cases w <;> simp only [remark, equal]
  | .ring .., w => by cases w <;> simp only [remark, equal]
  | .again _, w => by cases w <;> simp only [remark, equal]

theorem equalItems_remark : ∀ as bs : List Value,
    equalItems (remarkItems f as) (remarkItems f bs) = equalItems as bs
  | [], [] => rfl
  | [], _ :: _ => rfl
  | _ :: _, [] => rfl
  | a :: as, b :: bs => by
    rw [remarkItems, remarkItems, equalItems, equalItems, equal_remark a, equalItems_remark as]

theorem equalFields_remark : ∀ (as : List (Scalar × Value)) (bs : Fields),
    equalFields (remarkFields f as) (remarkFields f bs) = equalFields as bs
  | [], _ => rfl
  | (k, a) :: rest, bs => by
    rw [remarkFields, equalFields, equalFields, get?_remarkFields, equalFields_remark rest]
    cases Fields.get? k bs with
    | none => rfl
    | some b =>
      rw [Option.map_some]
      dsimp only
      rw [equal_remark a]

end

mutual

theorem hasText_remark : ∀ v : Value, (v.remark f).hasText = v.hasText
  | .scalar _ | .set _ | .again _ => rfl
  | .list items => itemsHaveText_remark items
  | .pair a b => by rw [remark, hasText, hasText, hasText_remark a, hasText_remark b]
  | .map _ fields => fieldsHaveText_remark fields
  | .ring _ items => itemsHaveText_remark items

theorem itemsHaveText_remark : ∀ items : List Value,
    itemsHaveText (remarkItems f items) = itemsHaveText items
  | [] => rfl
  | v :: rest => by
    rw [remarkItems, itemsHaveText, itemsHaveText, hasText_remark v, itemsHaveText_remark rest]

theorem fieldsHaveText_remark : ∀ fields : List (Scalar × Value),
    fieldsHaveText (remarkFields f fields) = fieldsHaveText fields
  | [] => rfl
  | (k, v) :: rest => by
    rw [remarkFields, fieldsHaveText, fieldsHaveText, hasText_remark v, fieldsHaveText_remark rest]

end

/-! ## Reading that sees marks in cycles only -/

mutual

theorem plug_of_acyclic (mark : Nat) (whole : Value) :
    ∀ v : Value, v.isAcyclic → plug mark whole v = v
  | .scalar _, _ | .set _, _ => rfl
  | .list items, h => congrArg list (plugItems_of_acyclic mark whole items h)
  | .pair a b, h => by
    rw [isAcyclic, Bool.and_eq_true] at h
    rw [plug, plug_of_acyclic mark whole a h.1, plug_of_acyclic mark whole b h.2]
  | .map m fields, h => by
    rw [isAcyclic, Bool.and_eq_true] at h
    rw [plug, plugFields_of_acyclic mark whole fields h.1, ite_self]

theorem plugItems_of_acyclic (mark : Nat) (whole : Value) :
    ∀ items : List Value, itemsAreAcyclic items → plugItems mark whole items = items
  | [], _ => rfl
  | v :: rest, h => by
    rw [itemsAreAcyclic, Bool.and_eq_true] at h
    rw [plugItems, plug_of_acyclic mark whole v h.1, plugItems_of_acyclic mark whole rest h.2]

theorem plugFields_of_acyclic (mark : Nat) (whole : Value) :
    ∀ fields : List (Scalar × Value), fieldsAreAcyclic fields →
      plugFields mark whole fields = fields
  | [], _ => rfl
  | (k, v) :: rest, h => by
    rw [fieldsAreAcyclic, Bool.and_eq_true] at h
    rw [plugFields, plug_of_acyclic mark whole v h.1, plugFields_of_acyclic mark whole rest h.2]

end

/-- What is taken out of a value without cycles never refers to it. -/
theorem unroll_of_acyclic (h : v.isAcyclic) : v.unroll = v := by
  cases v with
  | map m fields =>
    cases m with
    | none => rfl
    | some m =>
      rw [isAcyclic, Bool.and_eq_true] at h
      rw [unroll, plugFields_of_acyclic _ _ _ h.1]
  | ring m items => cases h
  | _ => rfl

/-- None of the marks is among those of the values that are being written. -/
def Apart (around : List (Nat × Bool)) (marks : List Nat) : Prop :=
  ∀ k ∈ marks, around.any (·.1 == k) = false

theorem Apart.append {around : List (Nat × Bool)} {as bs : List Nat} :
    Apart around (as ++ bs) ↔ Apart around as ∧ Apart around bs := by
  simp only [Apart, List.mem_append, or_imp, forall_and]

mutual

theorem spelling_unshare (around around' : List (Nat × Bool)) : ∀ v : Value, v.isAcyclic →
    Apart around v.marks → (v.remark fun _ => none).spelling around' = v.spelling around
  | .scalar _, _, _ => by rw [remark, spelling, spelling]
  | .set [], _, _ => by rw [remark, spelling, spelling]
  | .set (_ :: _), _, _ => by rw [remark, spelling, spelling] <;> simp
  | .list items, h, ha => by
    rw [remark, spelling, spelling, itemSpellings_unshare around around' items h ha]
  | .pair a b, h, ha => by
    rw [isAcyclic, Bool.and_eq_true] at h
    rw [marks, Apart.append] at ha
    rw [remark, spelling, spelling, spelling_unshare around around' a h.1 ha.1,
      spelling_unshare around around' b h.2 ha.2]
  | .map none fields, h, ha => by
    rw [isAcyclic, Bool.and_eq_true] at h
    rw [remark, Option.bind_none, spelling, spelling,
      fieldSpellings_unshare around around' fields h.1 ha]
  | .map (some m) fields, h, ha => by
    rw [isAcyclic, Bool.and_eq_true] at h
    rw [marks, Apart.append] at ha
    -- A mapping is never written inside itself, so it comes without dots.
    have hm : around.any (·.1 == m) = false := ha.1 m (by simp)
    have hin : Apart ((m, false) :: around) (marksOfFields fields) := by
      intro k hk
      have hne : m ≠ k := by
        rintro rfl
        simpa [hk] using h.2
      rw [List.any_cons, ha.2 k hk, Bool.or_false]
      simpa using hne
    rw [remark, Option.bind_some, spelling, spelling, hm,
      fieldSpellings_unshare ((m, false) :: around) around' fields h.1 hin]
    rfl

theorem itemSpellings_unshare (around around' : List (Nat × Bool)) :
    ∀ items : List Value, itemsAreAcyclic items → Apart around (marksOfItems items) →
      itemSpellings around' (remarkItems (fun _ => none) items) = itemSpellings around items
  | [], _, _ => rfl
  | v :: rest, h, ha => by
    rw [itemsAreAcyclic, Bool.and_eq_true] at h
    rw [marksOfItems, Apart.append] at ha
    rw [remarkItems, itemSpellings, itemSpellings, spelling_unshare around around' v h.1 ha.1,
      itemSpellings_unshare around around' rest h.2 ha.2]

theorem fieldSpellings_unshare (around around' : List (Nat × Bool)) :
    ∀ fields : List (Scalar × Value), fieldsAreAcyclic fields →
      Apart around (marksOfFields fields) →
      fieldSpellings around' (remarkFields (fun _ => none) fields) = fieldSpellings around fields
  | [], _, _ => rfl
  | (k, v) :: rest, h, ha => by
    rw [fieldsAreAcyclic, Bool.and_eq_true] at h
    rw [marksOfFields, Apart.append] at ha
    rw [remarkFields, fieldSpellings, fieldSpellings, spelling_unshare around around' v h.1 ha.1,
      fieldSpellings_unshare around around' rest h.2 ha.2]

end

end Value

end StepLoom
