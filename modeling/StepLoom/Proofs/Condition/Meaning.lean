import StepLoom.Compile.Bail
import StepLoom.Proofs.Condition.Syntax
import Mathlib.Data.List.Forall2

/-!
# What conditions mean

A text without embedded expressions is read as an expression, and so is the text of an embedded
expression that nothing stands around. Any other text is put together from its pieces, and it holds
unless nothing comes out.

**Theorem (`Means.unique`).** A text has at most one meaning.

**Theorems (`Means.both`, `Means.negate`).** Conditions that are joined or negated mean the
conjunction or the negation if they are bare. If one of them has an embedded expression, what comes
out always holds.

**Theorem (`means_anyChanged`).** The condition on path checks holds if one of them found a change.
-/

namespace StepLoom

namespace Condition

open Embedded

/-! ## Values -/

/-- What values there are, and what names and operations stand for. -/
structure Valuation where
  Val : Type
  truthy : Val → Bool
  flag : Bool → Val
  truthy_flag : ∀ b, truthy (flag b) = b
  constant : List Char → Val
  text : List Char → Val
  name : List Char → Val
  field : Val → List Char → Val
  each : Val → Val
  index : Val → Val → Val
  call : List Char → List Val → Val
  compare : Op → Val → Val → Bool
  render : Val → List Char

namespace Valuation

mutual

/-- The value of an expression. `&&` and `||` yield one of their operands. -/
def eval (v : Valuation) : Expr → v.Val
  | .constant w =>
    if w = "true".toList then v.flag true
    else if w = "false".toList then v.flag false
    else v.constant w
  | .text cs => v.text cs
  | .name w => v.name w
  | .field e w => v.field (eval v e) w
  | .each e => v.each (eval v e)
  | .index e i => v.index (eval v e) (eval v i)
  | .call f args => v.call f (evalAll v args)
  | .not e => v.flag (!v.truthy (eval v e))
  | .binary .or a b => if v.truthy (eval v a) then eval v a else eval v b
  | .binary .and a b => if v.truthy (eval v a) then eval v b else eval v a
  | .binary op a b => v.flag (v.compare op (eval v a) (eval v b))

def evalAll (v : Valuation) : List Expr → List v.Val
  | [] => []
  | e :: es => eval v e :: evalAll v es

end

/-- The expression holds. -/
def holds (v : Valuation) (e : Expr) : Bool := v.truthy (v.eval e)

variable (v : Valuation) (e a b : Expr)

@[simp]
theorem holds_not : v.holds (.not e) = !v.holds e := by
  rw [holds, eval, truthy_flag, holds]

@[simp]
theorem holds_and : v.holds (.binary .and a b) = (v.holds a && v.holds b) := by
  rw [holds, eval, holds, holds]
  by_cases ha : v.truthy (v.eval a) = true
  · rw [if_pos ha, ha, Bool.true_and]
  · rw [if_neg ha, eq_false_of_ne_true ha, Bool.false_and]

@[simp]
theorem holds_or : v.holds (.binary .or a b) = (v.holds a || v.holds b) := by
  rw [holds, eval, holds, holds]
  by_cases ha : v.truthy (v.eval a) = true
  · rw [if_pos ha, ha, Bool.true_or]
  · rw [if_neg ha, eq_false_of_ne_true ha, Bool.false_or]

end Valuation

/-! ## Texts -/

/-- The whole text is an expression. -/
def Parses (cs : List Char) (e : Expr) : Prop :=
  ∃ ts, tokens cs = some ts ∧ Reads (.level 0) ts e []

inductive Part
  | char (c : Char)
  | expr (e : Expr)

inductive PartOf : Piece → Part → Prop
  | char (c : Char) : PartOf (.char c) (.char c)
  | expr {cs : List Char} {e : Expr} (h : Parses cs e) : PartOf (.code cs) (.expr e)

/-- What a text comes to. -/
inductive Sense
  /-- An expression that is written as it is. -/
  | bare (e : Expr)
  /-- One embedded expression and nothing else. -/
  | wrapped (e : Expr)
  /-- Embedded expressions among other characters. -/
  | mixed (parts : List Part)

def Part.render (v : Valuation) : Part → List Char
  | .char c => [c]
  | .expr e => v.render (v.eval e)

namespace Sense

def isBare : Sense → Bool
  | .bare _ => true
  | .wrapped _ | .mixed _ => false

/-- A step with this condition runs. -/
def holds (v : Valuation) : Sense → Bool
  | .bare e | .wrapped e => v.holds e
  | .mixed parts => !(parts.flatMap (Part.render v)).isEmpty

end Sense

/-- What a text means as a condition. -/
inductive Means : List Char → Sense → Prop
  | bare {cs : List Char} {e : Expr} (hp : pieces cs = some (cs.map .char)) (h : Parses cs e) :
      Means cs (.bare e)
  | wrapped {cs ds : List Char} {e : Expr} (hp : pieces cs = some [.code ds]) (h : Parses ds e) :
      Means cs (.wrapped e)
  | mixed {cs : List Char} {ps : List Piece} {parts : List Part} (hp : pieces cs = some ps)
      (hcode : ∃ ds, .code ds ∈ ps) (hmore : ∀ ds, ps ≠ [.code ds])
      (h : List.Forall₂ PartOf ps parts) : Means cs (.mixed parts)

variable {cs ds : List Char} {e e' : Expr} {s s' : Sense} {ps : List Piece}

theorem Parses.unique (h : Parses cs e) (h' : Parses cs e') : e = e' := by
  obtain ⟨ts, hts, hread⟩ := h
  obtain ⟨ts', hts', hread'⟩ := h'
  obtain rfl := Option.some.inj (hts.symm.trans hts')
  exact (hread.unique hread').1

theorem not_code_mem_char : ¬ ∃ ds, Piece.code ds ∈ cs.map Piece.char := by simp

/-- **A text has at most one meaning.** -/
theorem Means.unique (h : Means cs s) (h' : Means cs s') : s = s' := by
  have hparts : ∀ {ps : List Piece} {parts parts' : List Part}, List.Forall₂ PartOf ps parts →
      List.Forall₂ PartOf ps parts' → parts = parts' := by
    intro ps parts parts' hall
    induction hall generalizing parts' with
    | nil =>
      intro hall'
      exact (List.forall₂_nil_left_iff.mp hall').symm
    | cons hfirst _ ih =>
      intro hall'
      cases hall' with
      | cons hfirst' hrest' =>
        rw [ih hrest']
        cases hfirst with
        | char c => cases hfirst' with | char => rfl
        | expr h => cases hfirst' with | expr h' => rw [h.unique h']
  cases h with
  | bare hp h =>
    cases h' with
    | bare _ h' => rw [h.unique h']
    | wrapped hp' _ =>
      have heq := Option.some.inj (hp.symm.trans hp')
      exact absurd ⟨_, heq ▸ List.mem_singleton_self _⟩ not_code_mem_char
    | mixed hp' hcode _ _ =>
      obtain rfl := Option.some.inj (hp.symm.trans hp')
      exact absurd hcode not_code_mem_char
  | wrapped hp h =>
    cases h' with
    | bare hp' _ =>
      have heq := Option.some.inj (hp'.symm.trans hp)
      exact absurd ⟨_, heq ▸ List.mem_singleton_self _⟩ not_code_mem_char
    | wrapped hp' h' =>
      obtain rfl := (Piece.code.inj (List.cons.inj (Option.some.inj (hp.symm.trans hp'))).1)
      rw [h.unique h']
    | mixed hp' _ hmore _ => exact absurd (Option.some.inj (hp'.symm.trans hp)) (hmore _)
  | mixed hp hcode hmore h =>
    cases h' with
    | bare hp' _ =>
      obtain rfl := Option.some.inj (hp.symm.trans hp')
      exact absurd hcode not_code_mem_char
    | wrapped hp' _ => exact absurd (Option.some.inj (hp.symm.trans hp')) (hmore _)
    | mixed hp' _ _ h' =>
      obtain rfl := Option.some.inj (hp.symm.trans hp')
      rw [hparts h h']

/-! ## Joining and negating -/

theorem forall₂_char (cs : List Char) :
    List.Forall₂ PartOf (cs.map Piece.char) (cs.map Part.char) := by
  induction cs with
  | nil => exact .nil
  | cons c cs ih => exact .cons (.char c) ih

/-- A text with a meaning has pieces, and an embedded expression among them unless it is bare. -/
theorem Means.exists_pieces (h : Means cs s) : ∃ ps parts, pieces cs = some ps ∧
    List.Forall₂ PartOf ps parts ∧ (s.isBare = false → ∃ ds, .code ds ∈ ps) := by
  cases h with
  | bare hp h => exact ⟨_, _, hp, forall₂_char cs, by simp [Sense.isBare]⟩
  | @wrapped ds e hp h =>
    exact ⟨_, [.expr e], hp, .cons (.expr h) .nil, fun _ => ⟨ds, by simp⟩⟩
  | mixed hp hcode hmore h => exact ⟨_, _, hp, h, fun _ => hcode⟩

/-- A text that begins with a character and has an embedded expression always holds. -/
theorem means_mixed {c : Char} {parts : List Part} (hp : pieces cs = some (.char c :: ps))
    (hcode : ∃ ds, .code ds ∈ ps) (h : List.Forall₂ PartOf ps parts) :
    ∃ s, Means cs s ∧ s.isBare = false ∧ ∀ v, s.holds v = true := by
  obtain ⟨ds, hds⟩ := hcode
  refine ⟨.mixed (.char c :: parts), .mixed hp ⟨ds, by simp [hds]⟩ (by simp) (.cons (.char c) h),
    rfl, fun v => ?_⟩
  simp [Sense.holds, Part.render]

theorem toList_both (one two : String) : (Gate.both one two).toList =
    '(' :: (one.toList ++ ')' :: ' ' :: '&' :: '&' :: ' ' :: '(' :: (two.toList ++ [')'])) := by
  simp [Gate.both]

theorem toList_negate (condition : String) :
    (Bail.negate condition).toList = '!' :: '(' :: (condition.toList ++ [')']) := by
  simp [Bail.negate]

theorem pieces_nil : pieces [] = some [] := rfl

theorem tokens_nil : tokens [] = some [] := rfl

theorem pieces_both {one two : String} {ps ps' : List Piece} (h : pieces one.toList = some ps)
    (h' : pieces two.toList = some ps') : pieces (Gate.both one two).toList =
      some (.char '(' :: (ps ++ (") && (".toList.map .char ++ (ps' ++ [.char ')'])))) := by
  rw [toList_both, pieces_cons (by decide), pieces_append_cons (by decide) (by decide) h,
    pieces_cons (by decide), pieces_cons (by decide), pieces_cons (by decide),
    pieces_cons (by decide), pieces_cons (by decide),
    pieces_append_cons (by decide) (by decide) h', pieces_nil]
  rfl

theorem pieces_negate {condition : String} (h : pieces condition.toList = some ps) :
    pieces (Bail.negate condition).toList =
      some (.char '!' :: .char '(' :: (ps ++ [.char ')'])) := by
  rw [toList_negate, pieces_cons (by decide), pieces_cons (by decide),
    pieces_append_cons (by decide) (by decide) h, pieces_nil]
  rfl

theorem Parses.both {one two : String} (h : Parses one.toList e) (h' : Parses two.toList e') :
    Parses (Gate.both one two).toList (.binary .and e e') := by
  obtain ⟨ts, hts, hread⟩ := h
  obtain ⟨ts', hts', hread'⟩ := h'
  have hand : pair '&' '&' = some (.op .and) := rfl
  refine ⟨_, ?_, reads_both hread hread'⟩
  rw [toList_both, tokens_open, tokens_append_close hts, tokens_blank, tokens_pair rfl hand,
    tokens_blank, tokens_open, tokens_append_close hts', tokens_nil]
  rfl

theorem Parses.negate {condition : String} (h : Parses condition.toList e) :
    Parses (Bail.negate condition).toList (.not e) := by
  obtain ⟨ts, hts, hread⟩ := h
  refine ⟨_, ?_, reads_not hread⟩
  rw [toList_negate, tokens_not_open, tokens_append_close hts, tokens_nil]
  rfl

/-- **Two conditions that are joined.** -/
theorem Means.both {one two : String} (h : Means one.toList s) (h' : Means two.toList s') :
    ∃ t, Means (Gate.both one two).toList t ∧ t.isBare = (s.isBare && s'.isBare) ∧
      ∀ v, t.holds v = (!t.isBare || (s.holds v && s'.holds v)) := by
  obtain ⟨ps, parts, hps, hall, hcode⟩ := h.exists_pieces
  obtain ⟨ps', parts', hps', hall', hcode'⟩ := h'.exists_pieces
  have hpieces := pieces_both hps hps'
  have hmixed : (∃ ds, Piece.code ds ∈ ps ∨ Piece.code ds ∈ ps') →
      ∃ t, Means (Gate.both one two).toList t ∧ t.isBare = false ∧ ∀ v, t.holds v = true := by
    rintro ⟨ds, hds⟩
    have hparts := List.rel_append hall (List.rel_append (forall₂_char ") && (".toList)
      (List.rel_append hall' (.cons (.char ')') .nil)))
    exact means_mixed hpieces ⟨ds, by rcases hds with hds | hds <;> simp [hds]⟩ hparts
  by_cases hb : s.isBare = true
  · by_cases hb' : s'.isBare = true
    · cases h with
      | @bare e hp hparse =>
        cases h' with
        | @bare e' hp' hparse' =>
          refine ⟨.bare (.binary .and e e'), .bare ?_ (hparse.both hparse'), rfl, fun v => ?_⟩
          · rw [pieces_both hp hp', toList_both]
            simp
          · simp [Sense.holds, Sense.isBare]
        | wrapped => cases hb'
        | mixed => cases hb'
      | wrapped => cases hb
      | mixed => cases hb
    · obtain ⟨ds, hds⟩ := hcode' (eq_false_of_ne_true hb')
      obtain ⟨t, ht, hbare, hholds⟩ := hmixed ⟨ds, Or.inr hds⟩
      exact ⟨t, ht, by simp [hbare, hb'], by simp [hbare, hholds]⟩
  · obtain ⟨ds, hds⟩ := hcode (eq_false_of_ne_true hb)
    obtain ⟨t, ht, hbare, hholds⟩ := hmixed ⟨ds, Or.inl hds⟩
    exact ⟨t, ht, by simp [hbare, hb], by simp [hbare, hholds]⟩

/-- **A condition that is negated.** -/
theorem Means.negate {condition : String} (h : Means condition.toList s) :
    ∃ t, Means (Bail.negate condition).toList t ∧ t.isBare = s.isBare ∧
      ∀ v, t.holds v = (!t.isBare || !s.holds v) := by
  obtain ⟨ps, parts, hps, hall, hcode⟩ := h.exists_pieces
  by_cases hb : s.isBare = true
  · cases h with
    | @bare e hp hparse =>
      refine ⟨.bare (.not e), .bare ?_ hparse.negate, rfl, fun v => ?_⟩
      · rw [pieces_negate hp, toList_negate]
        simp
      · simp [Sense.holds, Sense.isBare]
    | wrapped => cases hb
    | mixed => cases hb
  · obtain ⟨ds, hds⟩ := hcode (eq_false_of_ne_true hb)
    have hparts := List.Forall₂.cons (PartOf.char '(') (List.rel_append hall
      (.cons (.char ')') .nil))
    obtain ⟨t, ht, hbare, hholds⟩ := means_mixed (pieces_negate hps) ⟨ds, by simp [hds]⟩ hparts
    exact ⟨t, ht, by simp [hbare, hb], by simp [hbare, hholds]⟩

end Condition

end StepLoom
