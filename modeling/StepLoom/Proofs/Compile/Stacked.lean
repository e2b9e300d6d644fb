import StepLoom.Proofs.Compile.Readable
import Mathlib.Data.List.ReduceOption

/-!
# The gates of a step

Every bail condition puts a gate in front of what is there already, so the gates of a step are
stacked in the order of the steps that bail before it.

**Theorem (`Resolves.gate?`).** After bail conditions are resolved, the `if` of a step is the one it
had, under the gates of all earlier steps that bail.
-/

namespace StepLoom

open Value

/-- An `if` under the negation of some conditions, the last one outermost. -/
def Gate.stacked (conditions : List String) (gate : Option String) : Option String :=
  conditions.foldl (fun gate c => some (joined (Bail.negate c) gate)) gate

namespace Bail

variable {v w : Value} {steps out : List Value} {n k : Nat} {gate condition : String}

/-- The bail condition of a step with its outputs referred to through the id that the step has in
the end. -/
def rewritten (v w : Value) : Option String := do
  let condition ← Step.bail? v
  let id ← w.part "id"
  let text ← id.text.toOption
  (qualify text (.str condition)).toOption

/-- What a step that bails gives: its condition is qualified with its own id or with a new one. -/
theorem split_spec (h : split n v = .ok (w, gate)) (hv : Step.Typed v)
    (hc : Step.bail? v = some condition) : ∃ x text q, w.part "id" = some x ∧ x.text = .ok text ∧
      qualify text (.str condition) = .ok q ∧ gate = negate q ∧
      (given? (v.part "id") = some x ∨ x = .str (defaultId n)) := by
  have hbail := Step.bail?_eq_some hv hc
  obtain ⟨fields, rfl⟩ := hv.record
  obtain ⟨fs, x, bail, text, q, hfs, hx, hcondition, htext, hq, rfl, rfl⟩ := split_inv h
  obtain rfl : fields = fs := Option.some.inj hfs
  obtain rfl : bail = .str condition := Option.some.inj (hcondition.symm.trans hbail)
  obtain ⟨y, hy, hfrom⟩ := id_withId n fields
  obtain rfl : x = y := Option.some.inj (hx.symm.trans hy)
  exact ⟨x, text, q, (Fields.get?_erase_ne (by decide)).trans hx, htext, hq, rfl, hfrom⟩

theorem rewritten_of_split (h : split n v = .ok (w, gate)) (hv : Step.Typed v)
    (hb : bails v = true) : ∃ q, rewritten v w = some q ∧ gate = negate q := by
  rw [bails_iff hv, Option.isSome_iff_exists] at hb
  obtain ⟨condition, hc⟩ := hb
  obtain ⟨x, text, q, hx, ht, hq, hgate, -⟩ := split_spec h hv hc
  refine ⟨q, ?_, hgate⟩
  rw [rewritten, hc, hx]
  simp [ht, hq, Except.toOption]

theorem rewritten_of_not_bails (hv : Step.Typed v) (hb : bails v = false) :
    rewritten v w = none := by
  rw [bails_iff hv, Option.isSome_eq_false_iff, Option.isNone_iff_eq_none] at hb
  rw [rewritten, hb]
  rfl

/-- The id that a step that bails has in the end is its own or a new one. -/
theorem Resolves.ids (h : Resolves n steps out) (hs : ∀ v ∈ steps, Step.Typed v) :
    List.Forall₂ (fun v w => Step.bail? v ≠ none → ∃ x, w.part "id" = some x ∧
      (given? (v.part "id") = some x ∨ ∃ m, x = .str (defaultId m))) steps out := by
  induction h with
  | nil => exact .nil
  | @keep n v rest out hv _ ih =>
    refine .cons (fun hc => ?_) (ih fun w hw => hs w (List.mem_cons_of_mem v hw))
    rw [bails_iff (hs v (by simp)), Option.isSome_eq_false_iff, Option.isNone_iff_eq_none] at hv
    exact absurd hv hc
  | @bail n v v' gate rest rest' out hv hsplit hgate _ ih =>
    have hrest : ∀ w ∈ rest, Step.Typed w := fun w hw => hs w (List.mem_cons_of_mem v hw)
    have hne : gate ≠ "" := by
      obtain ⟨q, -, rfl⟩ := rewritten_of_split hsplit (hs v (by simp)) hv
      exact negate_ne_empty q
    obtain ⟨gated, hgated, hall⟩ := Step.gateAll_total hrest hne
    obtain rfl := Except.ok.inj (hgate.symm.trans hgated)
    refine .cons (fun hc => ?_) ?_
    · obtain ⟨condition, hc⟩ := Option.ne_none_iff_exists'.mp hc
      obtain ⟨x, text, q, hx, -, -, -, hfrom⟩ := split_spec hsplit (hs v (by simp)) hc
      exact ⟨x, hx, hfrom.imp_right fun h => ⟨n, h⟩⟩
    · have htyped : ∀ w ∈ rest', Step.Typed w := by
        intro w hw
        obtain ⟨u, -, hu, -⟩ := forall₂_exists_left hall hw
        exact hu
      refine forall₂_comp (fun u w z huw hwz hc => ?_) hall (ih htyped)
      have hbail : Step.bail? w = Step.bail? u := by
        rw [Step.bail?, huw.2.1.part (by simp), Step.bail?]
      have hid : w.part "id" = u.part "id" := huw.2.1.part (by simp)
      rw [← hid]
      exact hwz (hbail ▸ hc)

/-- The gates that earlier steps put on the `k`-th one. -/
def conditionsBefore (k : Nat) (steps out : List Value) : List String :=
  ((steps.zipWith rewritten out).take k).reduceOption

/-- Only bail conditions and ids matter for what is rewritten. -/
theorem zipWith_rewritten {steps' out' : List Value}
    (h : List.Forall₂ (fun v v' => v'.part "bail_if" = v.part "bail_if") steps steps')
    (ho : List.Forall₂ (fun w w' => w'.part "id" = w.part "id") out out') :
    steps'.zipWith rewritten out' = steps.zipWith rewritten out := by
  induction h generalizing out out' with
  | nil => rfl
  | cons hv _ ih =>
    cases ho with
    | nil => rfl
    | cons hw hrest =>
      rw [List.zipWith_cons_cons, List.zipWith_cons_cons, ih hrest, rewritten, Step.bail?, hv, hw]
      rfl

/-- **The `if` of a step after bail conditions are resolved.** -/
theorem Resolves.gate? (h : Resolves n steps out) (hs : ∀ v ∈ steps, Step.Typed v)
    (hv : steps[k]? = some v) (hw : out[k]? = some w) :
    Step.gate? w = Gate.stacked (conditionsBefore k steps out) (Step.gate? v) := by
  induction h generalizing k v with
  | nil => simp at hv
  | @keep n u rest out hu _ ih =>
    cases k with
    | zero =>
      obtain rfl := Option.some.inj hv
      obtain rfl := Option.some.inj hw
      rfl
    | succ k =>
      have hnone : rewritten u u = none := rewritten_of_not_bails (hs u (by simp)) hu
      have hrest := ih (fun x hx => hs x (List.mem_cons_of_mem u hx)) hv hw
      rw [conditionsBefore, List.zipWith_cons_cons, hnone, List.take_succ_cons,
        List.reduceOption_cons_of_none]
      exact hrest
  | @bail n u u' gate rest rest' out hu hsplit hgate _ ih =>
    have hrest : ∀ x ∈ rest, Step.Typed x := fun x hx => hs x (List.mem_cons_of_mem u hx)
    obtain ⟨q, hq, rfl⟩ := rewritten_of_split hsplit (hs u (by simp)) hu
    cases k with
    | zero =>
      obtain rfl := Option.some.inj hv
      obtain rfl := Option.some.inj hw
      have hsame := split_ok hsplit (hs u (by simp)).record
      rw [Step.gate?, hsame.part (by simp)]
      rfl
    | succ k =>
      obtain ⟨gated, hgated, hall⟩ := Step.gateAll_total hrest (negate_ne_empty q)
      obtain rfl := Except.ok.inj (hgate.symm.trans hgated)
      have hlen := hall.length_eq
      rw [List.getElem?_cons_succ] at hv hw
      obtain ⟨hk, rfl⟩ := List.getElem?_eq_some_iff.mp hv
      have hv' : rest'[k]? = some rest'[k] := List.getElem?_eq_getElem (hlen ▸ hk)
      obtain ⟨-, -, hgate'⟩ := (List.forall₂_iff_get.mp hall).2 k hk (hlen ▸ hk)
      have htyped : ∀ x ∈ rest', Step.Typed x := by
        intro x hx
        obtain ⟨y, -, hy, -⟩ := forall₂_exists_left hall hx
        exact hy
      have hsame : rest'.zipWith rewritten out = rest.zipWith rewritten out :=
        zipWith_rewritten (hall.imp fun x y hxy => hxy.2.1.part (by simp))
          (List.forall₂_same.mpr fun _ _ => rfl)
      have hfinal := ih htyped hv' hw
      rw [conditionsBefore, hsame, show Step.gate? rest'[k] = _ from hgate'] at hfinal
      rw [conditionsBefore, List.zipWith_cons_cons, hq, List.take_succ_cons,
        List.reduceOption_cons_of_some, Gate.stacked, List.foldl_cons]
      exact hfinal

end Bail

end StepLoom
