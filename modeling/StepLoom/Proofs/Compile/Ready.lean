import StepLoom.Proofs.Compile.Bails

/-!
# What the compiler can work with

A step is *ready* if its `if` has a text, if its bail condition is a text, and if a step that bails
has an id without a backslash; blank fields do no harm. A gate may be any value with a text, a
number for instance.

**Theorem (`resolveAll_ready`).** The bail conditions of ready steps are resolved.
-/

namespace StepLoom

namespace Value

variable {v : Option Value} {x : Value} {s : String}

/-- The value has a text, unless it is blank. -/
def Spoken (v : Option Value) : Prop := ∀ x ∈ given? v, x.hasText

instance : Decidable (Spoken v) := inferInstanceAs (Decidable (∀ x ∈ given? v, x.hasText))

/-- The value is a text. -/
def IsText (x : Value) : Prop := ∃ s, x = .str s

theorem isText_iff : (string? x).isSome ↔ IsText x := by
  constructor
  · intro h
    unfold string? at h
    split at h
    · exact ⟨_, rfl⟩
    · cases h
  · rintro ⟨s, rfl⟩
    rfl

instance : Decidable (IsText x) := decidable_of_iff _ isText_iff

/-- The value is a text, unless it is blank. -/
def BlankOrText (v : Option Value) : Prop := ∀ x ∈ given? v, IsText x

instance : Decidable (BlankOrText v) := inferInstanceAs (Decidable (∀ x ∈ given? v, IsText x))

/-- The value is a scalar whose text holds no backslash. -/
def IsPlainId : Value → Prop
  | .scalar s => s.hasText ∧ '\\' ∉ s.bareSpelling.toList
  | _ => False

instance : Decidable (IsPlainId x) := by
  unfold IsPlainId
  split <;> infer_instance

/-- The value is a scalar whose text holds no backslash, unless it is blank. -/
def PlainId (v : Option Value) : Prop := ∀ x ∈ given? v, IsPlainId x

instance : Decidable (PlainId v) := inferInstanceAs (Decidable (∀ x ∈ given? v, IsPlainId x))

theorem text_total (h : x.hasText) : ∃ s, x.text = .ok s := by
  have hliteral : x.literal = .ok (x.spelling []) := if_pos h
  cases x with
  | scalar s => exact ⟨s.bareSpelling, if_pos h⟩
  | _ => exact ⟨_, hliteral⟩

theorem spoken_str : Spoken (some (.str s)) := by
  intro x hx
  obtain rfl := Option.some.inj (Option.filter_eq_some_iff.mp hx).1
  rfl

theorem spoken_none : Spoken none := by simp [Spoken, given?]

theorem blankOrText_none : BlankOrText none := by simp [BlankOrText, given?]

theorem plainId_none : PlainId none := by simp [PlainId, given?]

end Value

open Value

namespace Gate

variable {v : Option Value}

theorem inFrontOf_total (condition : String) (h : Spoken v) :
    ∃ s, inFrontOf condition v = .ok s := by
  rw [inFrontOf]
  cases hv : given? v with
  | none => exact ⟨_, rfl⟩
  | some x =>
    obtain ⟨s, hs⟩ := text_total (h x hv)
    refine ⟨both condition s, ?_⟩
    change (x.text >>= fun text => pure (both condition text)) = _
    rw [hs]
    rfl

end Gate

/-- The compiler can read the gate, the bail condition and the id of the step. -/
structure Step.Ready (step : Value) : Prop where
  gate : Spoken (step.part "if")
  bail : BlankOrText (step.part "bail_if")
  id : (given? (step.part "bail_if")).isSome → PlainId (step.part "id")

namespace Step

theorem ready_iff {step : Value} : (Spoken (step.part "if") ∧ BlankOrText (step.part "bail_if") ∧
    ((given? (step.part "bail_if")).isSome → PlainId (step.part "id"))) ↔ Ready step :=
  ⟨fun h => ⟨h.1, h.2.1, h.2.2⟩, fun h => ⟨h.gate, h.bail, h.id⟩⟩

instance {step : Value} : Decidable (Ready step) := decidable_of_iff _ ready_iff

variable {v w : Value} {fields : Fields} {condition gate : String} {steps out : List Value}
  {n : Nat}

theorem Ready.of_same {keys : List String} (h : Ready v) (hs : Same keys v w)
    (hkeys : ∀ key ∈ ["if", "bail_if", "id"], key ∉ keys) : Ready w where
  gate := by
    rw [hs.part (hkeys "if" (by simp))]
    exact h.gate
  bail := by
    rw [hs.part (hkeys "bail_if" (by simp))]
    exact h.bail
  id := by
    rw [hs.part (hkeys "bail_if" (by simp)), hs.part (hkeys "id" (by simp))]
    exact h.id

theorem Ready.put_gate (h : Ready (.record fields)) (gate : String) :
    Ready (.record (Fields.put "if" (.str gate) fields)) := by
  have hsame : Same ["if"] (.record fields) (.record (Fields.put "if" (.str gate) fields)) :=
    ⟨fields, _, rfl, rfl, (Fields.without_put (by simp)).symm⟩
  refine ⟨?_, ?_, ?_⟩
  · rw [show (Value.record _).part "if" = _ from Fields.get?_put_self]
    exact spoken_str
  · rw [hsame.part (by simp)]
    exact h.bail
  · rw [hsame.part (by simp), hsame.part (by simp)]
    exact h.id

/-- A ready step under a condition. -/
theorem Ready.guardWith (h : Ready v) (hv : v.IsRecord) (c : Option String) :
    ∃ w, Gate.guardWith c v = .ok w ∧ Ready w ∧ w.IsRecord := by
  obtain ⟨fields, rfl⟩ := hv
  unfold Gate.guardWith
  cases c.filter fun c => !c.isEmpty with
  | none => exact ⟨_, rfl, h, fields, rfl⟩
  | some c =>
    obtain ⟨gate, hgate⟩ := Gate.inFrontOf_total c h.gate
    refine ⟨_, ?_, h.put_gate gate, _, rfl⟩
    change (Gate.inFrontOf c (Fields.get? "if" fields) >>= fun gate => pure _) = _
    rw [show Gate.inFrontOf c (Fields.get? "if" fields) = .ok gate from hgate]
    rfl

theorem Ready.gateStep (h : Ready v) (hv : v.IsRecord) (condition : String) :
    ∃ w, Bail.gateStep condition v = .ok w ∧ Ready w ∧ w.IsRecord := by
  obtain ⟨fields, rfl⟩ := hv
  obtain ⟨gate, hgate⟩ := Gate.inFrontOf_total condition h.gate
  refine ⟨_, ?_, h.put_gate gate, _, rfl⟩
  change (Gate.inFrontOf condition (Fields.get? "if" fields) >>= fun gate => pure _) = _
  rw [show Gate.inFrontOf condition (Fields.get? "if" fields) = .ok gate from hgate]
  rfl

theorem mapM_total {f : Value → Except Fault Value} {P : Value → Prop}
    (h : ∀ v ∈ steps, ∃ w, f v = .ok w ∧ P w) :
    ∃ out, steps.mapM f = .ok out ∧ ∀ w ∈ out, P w := by
  induction steps with
  | nil => exact ⟨[], rfl, by simp⟩
  | cons v rest ih =>
    obtain ⟨w, hw, hp⟩ := h v (by simp)
    obtain ⟨out, hout, hall⟩ := ih fun u hu => h u (List.mem_cons_of_mem v hu)
    refine ⟨w :: out, ?_, List.forall_mem_cons.mpr ⟨hp, hall⟩⟩
    rw [List.mapM_cons, hw, hout]
    rfl

theorem gateAll_ready (h : ∀ v ∈ steps, Ready v ∧ v.IsRecord) (condition : String) :
    ∃ out, Bail.gateAll condition steps = .ok out ∧ ∀ w ∈ out, Ready w ∧ w.IsRecord := by
  induction steps with
  | nil => exact ⟨[], rfl, by simp⟩
  | cons v rest ih =>
    obtain ⟨hready, hrecord⟩ := h v (by simp)
    obtain ⟨w, hw, hp⟩ := hready.gateStep hrecord condition
    obtain ⟨out, hout, hall⟩ := ih fun u hu => h u (List.mem_cons_of_mem v hu)
    refine ⟨w :: out, ?_, List.forall_mem_cons.mpr ⟨hp, hall⟩⟩
    rw [Bail.gateAll, hw, hout]
    rfl

end Step

/-! ## Bail conditions -/

namespace Bail

variable {v : Value} {n : Nat} {steps out : List Value} {log : List Edit}

/-- A bail condition with its outputs referred to through an id. -/
def qualified (id condition : String) : String :=
  String.ofList (qualifyFrom ("steps." ++ id ++ ".outputs.").toList 0 ' ' condition.toList)

/-- A text without backslashes is a template for itself. -/
theorem expandFrom_eq {whole cs : List Char} (h : '\\' ∉ cs) : expandFrom whole 0 cs = .ok cs := by
  induction cs with
  | nil => rfl
  | cons c rest ih =>
    rw [List.mem_cons, not_or] at h
    rw [expandFrom, if_neg fun he => h.1 he.symm, ih h.2]
    rfl

theorem qualify_eq {id condition : String} (h : '\\' ∉ id.toList) :
    qualify id (.str condition) = .ok (qualified id condition) := by
  have htemplate : '\\' ∉ ("steps." ++ id ++ ".outputs.").toList := by
    rw [String.toList_append, String.toList_append, List.mem_append, List.mem_append]
    rintro ((hc | hc) | hc)
    · exact absurd hc (by decide)
    · exact h hc
    · exact absurd hc (by decide)
  rw [qualify, expandFrom_eq htemplate]
  rfl

theorem not_mem_defaultId (n : Nat) : '\\' ∉ (defaultId n).toList := by
  rw [defaultId, String.toList_append, List.mem_append]
  rintro (hc | hc)
  · exact absurd hc (by decide)
  · have := Nat.isDigit_of_mem_toDigits (by decide) (by decide) (b := 10) (n := n) (c := '\\') ?_
    · exact absurd this (by decide)
    · simpa using hc

/-- A ready step that bails gives a gate for later steps. -/
theorem split_ready (h : Step.Ready v) (hv : v.IsRecord) (hb : bails v) :
    ∃ w gate, split n v = .ok (w, gate) := by
  obtain ⟨fields, rfl⟩ := hv
  obtain ⟨b, hbail⟩ := Option.isSome_iff_exists.mp hb
  obtain ⟨condition, rfl⟩ := h.bail b hbail
  obtain ⟨id, hid, hown⟩ := id_withId n fields
  have hcondition : Fields.get? "bail_if" (withId n fields) = some (.str condition) := by
    rw [get?_withId (by decide)]
    exact (Option.filter_eq_some_iff.mp hbail).1
  have htext : ∃ text, id.text = .ok text ∧ '\\' ∉ text.toList := by
    rcases hown with hown | rfl
    · have hplain := h.id hb id hown
      cases id with
      | scalar s => exact ⟨s.bareSpelling, if_pos hplain.1, hplain.2⟩
      | _ => exact hplain.elim
    · exact ⟨defaultId n, rfl, not_mem_defaultId n⟩
  obtain ⟨text, htext, hslash⟩ := htext
  rw [split]
  simp only [show (record fields).fieldsOf = .ok fields from rfl, bind, Except.bind]
  rw [← withId]
  simp only [hid, hcondition, htext, qualify_eq hslash]
  exact ⟨_, _, rfl⟩

/-- Ready steps can be resolved from left to right. -/
theorem resolves_ready (h : ∀ v ∈ steps, Step.Ready v ∧ v.IsRecord) :
    ∃ out, Resolves n steps out := by
  induction hlen : steps.length generalizing steps n with
  | zero =>
    obtain rfl := List.length_eq_zero_iff.mp hlen
    exact ⟨[], .nil n⟩
  | succ k ih =>
    obtain ⟨v, rest, rfl⟩ := List.exists_cons_of_length_eq_add_one hlen
    rw [List.length_cons, Nat.add_right_cancel_iff] at hlen
    obtain ⟨hv, hrest⟩ := List.forall_mem_cons.mp h
    by_cases hb : bails v
    · obtain ⟨w, gate, hw⟩ := split_ready (n := n) hv.1 hv.2 hb
      obtain ⟨rest', hgate, hall⟩ := Step.gateAll_ready hrest gate
      have hlen' : rest'.length = k := by
        rw [← hlen, (gateAll_ok hgate fun u hu => (hrest u hu).2).length_eq]
      obtain ⟨out, hout⟩ := ih hall hlen'
      exact ⟨w :: out, .bail hb hw hgate hout⟩
    · obtain ⟨out, hout⟩ := ih hrest hlen
      exact ⟨v :: out, .keep (by simpa using hb) hout⟩

/-- Resolving from left to right is resolving position by position. -/
theorem Resolves.resolveAt (h : Resolves n steps out) (pre : List Value)
    (hs : ∀ v ∈ steps, v.IsRecord) :
    resolveAt n (positions pre.length steps) (pre ++ steps) log = .ok (pre ++ out, log) := by
  induction h generalizing pre log with
  | nil => rfl
  | @keep n v rest out hv _ ih =>
    have happend : pre ++ v :: rest = pre ++ [v] ++ rest := by simp
    rw [positions, if_neg (by simp [hv]), show pre.length + 1 = (pre ++ [v]).length by simp,
      happend, ih _ fun w hw => hs w (List.mem_cons_of_mem v hw)]
    simp
  | @bail n v v' gate rest rest' out hv hsplit hg _ ih =>
    have hrest : ∀ w ∈ rest, w.IsRecord := fun w hw => hs w (List.mem_cons_of_mem v hw)
    have hsame : positions (pre.length + 1) rest = positions (pre ++ [v']).length rest' := by
      rw [List.length_append, List.length_singleton]
      exact (positions_congr ((gateAll_ok hg hrest).imp fun v w hvw =>
        bails_congr (gateStep_ok hvw.2 hvw.1).2.1)).symm
    rw [positions, if_pos hv, Bail.resolveAt, resolveOne_eq (hs v (by simp)) hrest, hsplit]
    simp only [bind, Except.bind, hg, pure, Except.pure]
    have happend : pre ++ v' :: rest' = pre ++ [v'] ++ rest' := by simp
    rw [hsame, happend, ih _ (records_of_gateAll hg hrest)]
    simp

/-- **The bail conditions of ready steps are resolved.** -/
theorem resolveAll_ready (h : ∀ v ∈ steps, Step.Ready v ∧ v.IsRecord) :
    ∃ out, resolveAll steps = .ok (out, []) := by
  obtain ⟨out, hout⟩ := resolves_ready (n := 1) h
  have hs : ∀ v ∈ steps, v.IsRecord := fun v hv => (h v hv).2
  have hat : resolveAt 1 (positions 0 steps) steps [] = .ok (out, []) := hout.resolveAt [] hs
  refine ⟨out.map dropped, ?_⟩
  rw [resolveAll, positionsFrom_eq 0 hs]
  change resolveAt 1 (positions 0 steps) steps [] >>= _ = _
  rw [hat]
  exact dropFrom_eq [] [] (hout.records hs)

end Bail

end StepLoom
