import StepLoom.Proofs.Compile.Copies
import StepLoom.Proofs.Compile.Ready

/-!
# Steps whose texts can be read

A step is *readable* if the fields that gates and bail conditions look at are texts, and if an id
that bail conditions refer to holds no backslash. On readable steps no gate fails: this file says
which `if` comes out, and that the step stays readable.

**Theorem (`resolveAll_total`).** The bail conditions of readable steps are resolved.
-/

namespace StepLoom

namespace Value

/-- The value is a text, if there is one. -/
def TextOrAbsent (v : Option Value) : Prop := ∀ x, v = some x → ∃ s, x = .str s

/-- The text in a field, unless it is blank. -/
def word? (v : Option Value) : Option String := (given? v).bind string?

theorem TextOrAbsent.given?_eq {v : Option Value} (h : TextOrAbsent v) :
    given? v = (word? v).map .str := by
  cases v with
  | none => rfl
  | some x =>
    obtain ⟨s, rfl⟩ := h x rfl
    unfold word? given?
    rw [Option.filter_some]
    split_ifs <;> rfl

theorem word?_str {s : String} (h : s ≠ "") : word? (some (.str s)) = some s := by
  have hblank : (Value.str s).isBlank = false := by
    change s.isEmpty = false
    simpa using h
  rw [word?, given?, Option.filter_some, hblank]
  rfl

theorem textOrAbsent_str {s : String} : TextOrAbsent (some (.str s)) := by
  rintro x hx
  exact ⟨s, (Option.some.inj hx).symm⟩

theorem textOrAbsent_none : TextOrAbsent none := by simp [TextOrAbsent]

end Value

open Value

namespace Gate

/-- A condition in front of a text, if there is one. -/
def joined (condition : String) (existing : Option String) : String :=
  match existing with
  | some text => both condition text
  | none => condition

theorem inFrontOf_eq {condition : String} {v : Option Value} (h : TextOrAbsent v) :
    inFrontOf condition v = .ok (joined condition (word? v)) := by
  rw [inFrontOf, h.given?_eq]
  cases word? v <;> rfl

/-- The `if` of a step under a condition, if there is one. -/
def guarded (condition existing : Option String) : Option String :=
  match condition.filter fun c => !c.isEmpty with
  | some c => some (joined c existing)
  | none => existing

theorem joined_ne_empty {condition : String} (h : condition ≠ "") (existing : Option String) :
    joined condition existing ≠ "" := by
  cases existing with
  | none => exact h
  | some text =>
    intro he
    have := congrArg String.toList he
    simp [joined, both] at this

end Gate

/-- Gates and bail conditions of the step are texts. -/
structure Step.Typed (step : Value) : Prop where
  record : step.IsRecord
  gate : TextOrAbsent (step.part "if")
  bail : TextOrAbsent (step.part "bail_if")

/-- Bail conditions of the step can be resolved. -/
structure Step.Readable (step : Value) : Prop extends Step.Typed step where
  id : step.part "bail_if" ≠ none → ∀ x, step.part "id" = some x →
    ∃ s, x = .str s ∧ '\\' ∉ s.toList

namespace Step

variable {step v w : Value} {c : Option String} {condition : String} {n : Nat}

/-- The `if` of a step, unless it is blank. -/
def gate? (step : Value) : Option String := word? (step.part "if")

/-- The bail condition of a step, unless it is blank. -/
def bail? (step : Value) : Option String := word? (step.part "bail_if")

/-- Putting a gate in front of a step leaves its fields texts. -/
theorem Typed.put_gate {fields : Fields} (h : Typed (.record fields)) (gate : String) :
    Typed (.record (Fields.put "if" (.str gate) fields)) where
  record := ⟨_, rfl⟩
  gate := by
    rw [show (Value.record _).part "if" = _ from Fields.get?_put_self]
    exact textOrAbsent_str
  bail := by
    rw [show (Value.record (Fields.put "if" (.str gate) fields)).part "bail_if" = _ from
      Fields.get?_put_ne (by decide)]
    exact h.bail

/-- The gate of a step that is guarded. -/
theorem Typed.guardWith (h : Typed v) (c : Option String) : ∃ w, Gate.guardWith c v = .ok w ∧
    Typed w ∧ Same ["if"] v w ∧ gate? w = Gate.guarded c (gate? v) := by
  obtain ⟨fields, rfl⟩ := h.record
  unfold Gate.guardWith Gate.guarded
  cases hc : c.filter fun c => !c.isEmpty with
  | none => exact ⟨_, rfl, h, Same.refl ⟨fields, rfl⟩, rfl⟩
  | some c =>
    have hne : c ≠ "" := by
      have := (Option.filter_eq_some_iff.mp hc).2
      simpa using this
    have hgate : Gate.inFrontOf c (Fields.get? "if" fields) = _ := Gate.inFrontOf_eq h.gate
    refine ⟨.record (Fields.put "if" (.str (Gate.joined c (gate? (.record fields)))) fields), ?_,
      h.put_gate _, ⟨fields, _, rfl, rfl, (Fields.without_put (by simp)).symm⟩, ?_⟩
    · change (Gate.inFrontOf c (Fields.get? "if" fields) >>= fun gate => pure _) = _
      rw [hgate]
      rfl
    · rw [gate?, show (Value.record _).part "if" = _ from Fields.get?_put_self]
      exact word?_str (Gate.joined_ne_empty hne _)

theorem mapM_guardWith {vs : List Value} (h : ∀ v ∈ vs, Typed v) (c : Option String) :
    ∃ out, vs.mapM (Gate.guardWith c) = .ok out ∧ List.Forall₂ (fun v w => Typed w ∧
      Same ["if"] v w ∧ gate? w = Gate.guarded c (gate? v)) vs out := by
  induction vs with
  | nil => exact ⟨[], rfl, .nil⟩
  | cons v rest ih =>
    obtain ⟨w, hw, hspec⟩ := (h v (by simp)).guardWith c
    obtain ⟨out, hout, hall⟩ := ih fun u hu => h u (List.mem_cons_of_mem v hu)
    refine ⟨w :: out, ?_, .cons hspec hall⟩
    rw [List.mapM_cons, hw, hout]
    rfl

theorem Typed.gateStep (h : Typed v) (hne : condition ≠ "") :
    ∃ w, Bail.gateStep condition v = .ok w ∧ Typed w ∧ Same ["if"] v w ∧
      gate? w = some (Gate.joined condition (gate? v)) := by
  obtain ⟨fields, rfl⟩ := h.record
  have hgate : Gate.inFrontOf condition (Fields.get? "if" fields) = _ := Gate.inFrontOf_eq h.gate
  refine ⟨.record (Fields.put "if" (.str (Gate.joined condition (gate? (.record fields)))) fields),
    ?_, h.put_gate _, ⟨fields, _, rfl, rfl, (Fields.without_put (by simp)).symm⟩, ?_⟩
  · change (Gate.inFrontOf condition (Fields.get? "if" fields) >>= fun gate => pure _) = _
    rw [hgate]
    rfl
  · rw [gate?, show (Value.record _).part "if" = _ from Fields.get?_put_self]
    exact word?_str (Gate.joined_ne_empty hne _)

/-- The gates of steps after one that bails. -/
theorem gateAll_total {steps : List Value} (h : ∀ v ∈ steps, Typed v) (hne : condition ≠ "") :
    ∃ out, Bail.gateAll condition steps = .ok out ∧ List.Forall₂ (fun v w => Typed w ∧
      Same ["if"] v w ∧ gate? w = some (Gate.joined condition (gate? v))) steps out := by
  induction steps with
  | nil => exact ⟨[], rfl, .nil⟩
  | cons v rest ih =>
    obtain ⟨w, hw, hread, hsame, hgate⟩ := (h v (by simp)).gateStep hne
    obtain ⟨out, hout, hall⟩ := ih fun u hu => h u (List.mem_cons_of_mem v hu)
    refine ⟨w :: out, ?_, .cons ⟨hread, hsame, hgate⟩ hall⟩
    rw [Bail.gateAll, hw, hout]
    rfl

/-- Gates do not matter for bail conditions. -/
theorem Readable.of_same (h : Readable v) (hw : Typed w) (hs : Same ["if"] v w) : Readable w where
  toTyped := hw
  id := by
    rw [hs.part (by simp), hs.part (by simp)]
    exact h.id

/-- Readable steps are ready. -/
theorem Readable.ready (h : Readable v) : Ready v where
  gate x hx := by
    obtain ⟨s, rfl⟩ := h.gate x (Option.filter_eq_some_iff.mp hx).1
    rfl
  bail x hx := h.bail x (Option.filter_eq_some_iff.mp hx).1
  id hb x hx := by
    obtain ⟨b, hbail⟩ := Option.isSome_iff_exists.mp hb
    have hsome : v.part "bail_if" ≠ none := by
      rw [(Option.filter_eq_some_iff.mp hbail).1]
      simp
    obtain ⟨s, rfl, hs⟩ := h.id hsome x (Option.filter_eq_some_iff.mp hx).1
    exact ⟨rfl, hs⟩

theorem bail?_eq_some {v : Value} (h : Typed v) {condition : String}
    (hc : bail? v = some condition) : v.part "bail_if" = some (.str condition) := by
  unfold bail? at hc
  cases hx : v.part "bail_if" with
  | none => rw [hx] at hc; cases hc
  | some x =>
    obtain ⟨s, rfl⟩ := h.bail x hx
    have hs : s ≠ "" := by
      rintro rfl
      rw [hx] at hc
      cases hc
    rw [hx, word?_str hs] at hc
    rw [Option.some.inj hc]

end Step

/-! ## Bail conditions -/

namespace Bail

variable {v w : Value} {steps out : List Value} {n : Nat} {log : List Edit}

theorem bails_iff (h : Step.Typed v) : bails v = (Step.bail? v).isSome := by
  rw [bails, h.bail.given?_eq, Step.bail?]
  cases word? (v.part "bail_if") <;> rfl

theorem negate_ne_empty (condition : String) : negate condition ≠ "" := by
  intro he
  have := congrArg String.toList he
  simp [negate] at this

/-- **The bail conditions of readable steps are resolved.** -/
theorem resolveAll_total (h : ∀ v ∈ steps, Step.Readable v) :
    ∃ out, resolveAll steps = .ok (out, []) :=
  resolveAll_ready fun v hv => ⟨(h v hv).ready, (h v hv).record⟩

end Bail

end StepLoom
