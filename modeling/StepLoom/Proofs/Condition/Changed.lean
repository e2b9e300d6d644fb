import StepLoom.Proofs.Compile.Claims
import StepLoom.Proofs.Condition.Meaning

/-!
# Conditions on path checks

A step under path checks gets the condition that one of them found a change. Step ids of path checks
are names, so that the condition can be read.

**Theorem (`means_intercalate`).** The condition on some path checks is bare, and it holds if the
output of one of them says so.
-/

namespace StepLoom

namespace Condition

open Embedded Gate

variable {id : String} {ids : List String} {w : List Char} {rest : List Token} {a : Expr}

/-! ## Names -/

theorem isNumeric_of_constant (h : IsConstant w) : w ∈ keywords ∨ isNumeric w := by
  cases h with
  | keyword h => exact Or.inl h
  | @decimal sign whole fraction exponent hs hw hf he =>
    right
    rcases hs with rfl | rfl | rfl
    · obtain ⟨hne, hdigits⟩ := hw
      obtain ⟨c, cs, rfl⟩ := List.exists_cons_of_ne_nil hne
      simp [isNumeric, hdigits c (by simp)]
    · rfl
    · rfl
  | hex => exact Or.inr rfl
  | octal => exact Or.inr rfl

theorem isReference_of_name (h : isName w) (hw : w ∉ keywords) : IsReference w := by
  refine ⟨h, fun hc => ?_⟩
  rcases isNumeric_of_constant hc with hk | hn
  · exact hw hk
  · rw [not_numeric_of_name h] at hn
    cases hn

theorem isNameChar_of_wordChar {c : Char} (h : Check.isWordChar c) : isNameChar c := by
  unfold isNameChar
  rw [show (c.isAlphanum || c == '_') = true from h, Bool.true_or]

/-- Step ids of path checks are names. -/
theorem isName_candidate (ps : List String) (n : Nat) :
    isName (Registry.candidate (Check.outputName ps) n).toList := by
  have hchars : ∀ c ∈ (Registry.candidate (Check.outputName ps) n).toList, isNameChar c := by
    intro c hc
    unfold Registry.candidate at hc
    split_ifs at hc
    · exact isNameChar_of_wordChar (Check.isWordChar_of_mem_outputName hc)
    · rw [String.toList_append, String.toList_append, List.mem_append, List.mem_append] at hc
      rcases hc with (hc | hc) | hc
      · exact isNameChar_of_wordChar (Check.isWordChar_of_mem_outputName hc)
      · exact List.all_eq_true.mp (by decide : "-".toList.all isNameChar = true) c hc
      · have hdigit : c.isDigit :=
          Nat.isDigit_of_mem_toDigits (by decide) (by decide) (b := 10) (n := n) (by simpa using hc)
        simp [isNameChar, Char.isAlphanum, hdigit]
  have hhead : ∃ cs, (Registry.candidate (Check.outputName ps) n).toList = 'p' :: cs := by
    unfold Registry.candidate Check.outputName
    split_ifs <;> simp
  obtain ⟨cs, hcs⟩ := hhead
  rw [hcs] at hchars ⊢
  exact isName_iff.mpr ⟨'p', cs, rfl, by decide, fun d hd => hchars d (List.mem_cons_of_mem _ hd)⟩

/-! ## One path check -/

/-- The output of a path check says that a file changed. -/
def Valuation.changed (v : Valuation) (id : String) : Bool :=
  v.compare .eq (v.field (v.field (v.field (v.name "steps".toList) id.toList) "outputs".toList)
    "changed".toList) (v.text "true".toList)

def changedExpr (id : String) : Expr :=
  .binary .eq (.field (.field (.field (.name "steps".toList) id.toList) "outputs".toList)
    "changed".toList) (.text "true".toList)

def changedTokens (id : String) : List Token :=
  [.word "steps".toList, .dot, .word id.toList, .dot, .word "outputs".toList, .dot,
    .word "changed".toList, .op .eq, .text "true".toList]

theorem holds_changedExpr (v : Valuation) (id : String) :
    v.holds (changedExpr id) = v.changed id :=
  v.truthy_flag _

theorem toList_changed (id : String) : (changed id).toList = "steps".toList ++ '.' :: (id.toList ++
    '.' :: ("outputs".toList ++ '.' :: ("changed".toList ++ ' ' :: "== 'true'".toList))) := by
  simp [changed]

theorem tokens_changed (h : isName id.toList) :
    tokens (changed id).toList = some (changedTokens id) := by
  have hdot : isBoundary '.' = true := rfl
  have hlast : tokens "== 'true'".toList = some [.op .eq, .text "true".toList] := by decide
  rw [toList_changed, tokens_name (by decide) hdot, tokens_dot, tokens_name h hdot, tokens_dot,
    tokens_name (by decide) hdot, tokens_dot, tokens_name (by decide) (by decide), tokens_blank,
    hlast]
  rfl

theorem reads_changed (h : isName id.toList) (hrest : ∀ t, rest.head? = some t → t = .op .or) :
    Reads (.level 1) (changedTokens id ++ rest) (changedExpr id) rest := by
  have hsteps : IsReference "steps".toList := isReference_of_name (by decide) (by decide)
  have hne : ∀ {t : Token}, t ≠ .op .or → rest.head? ≠ some t := fun ht he => ht (hrest _ he)
  have hop : ∀ {n : Nat}, 0 < n → ∀ op, rest.head? = some (.op op) → op.rank < n := by
    intro n hn op he
    obtain rfl : op = .or := by simpa using hrest _ he
    exact hn
  -- The left operand is a name with three fields, the right one a text.
  have hleft : Reads (.level 3) _ (.field (.field (.field (.name "steps".toList) id.toList)
      "outputs".toList) "changed".toList) (.op .eq :: .text "true".toList :: rest) :=
    (Reads.operand (.name hsteps (by simp)) (.field h (.field (by decide) (.field (by decide)
      (.whole (by simp) (by simp)))))).lower (by decide) (Nat.le_refl _) (by simp [Op.rank])
  have hright : Reads (.level 3) (.text "true".toList :: rest) (.text "true".toList) rest :=
    (Reads.operand .text (.whole (hne (by simp)) (hne (by simp)))).lower (by decide)
      (Nat.le_refl _) (hop (by decide))
  have hlevel : Reads (.level 2) _ (changedExpr id) rest :=
    .binary (by decide) hleft (.more rfl hright (.last fun op he => (hop (by decide) op he).ne))
  exact hlevel.lower (by decide) (by decide) (hop (by decide))

/-! ## Some path checks -/

/-- The condition after the first path check. -/
def moreTokens (ids : List String) : List Token :=
  ids.flatMap fun id => .op .or :: changedTokens id

theorem head?_moreTokens (ids : List String) :
    ∀ t, (moreTokens ids).head? = some t → t = .op .or := by
  intro t ht
  cases ids with
  | nil => cases ht
  | cons id ids => exact (Option.some.inj ht).symm

theorem reads_more (h : ∀ id ∈ ids, isName id.toList) : Reads (.more 0 a) (moreTokens ids)
    (ids.foldl (fun e id => .binary .or e (changedExpr id)) a) [] := by
  induction ids generalizing a with
  | nil => exact .last (by simp [moreTokens])
  | cons id ids ih =>
    have hfirst : Reads (.level 1) (changedTokens id ++ moreTokens ids) (changedExpr id)
        (moreTokens ids) := reads_changed (h id (by simp)) (head?_moreTokens ids)
    exact .more rfl hfirst (ih fun i hi => h i (List.mem_cons_of_mem id hi))

theorem holds_foldl (v : Valuation) (ids : List String) (a : Expr) :
    v.holds (ids.foldl (fun e id => .binary .or e (changedExpr id)) a) =
      (v.holds a || ids.any v.changed) := by
  induction ids generalizing a with
  | nil => simp
  | cons id ids ih =>
    rw [List.foldl_cons, ih, Valuation.holds_or, holds_changedExpr, List.any_cons, Bool.or_assoc]

theorem tokens_intercalate (h : ∀ i ∈ id :: ids, isName i.toList) :
    tokens (" || ".intercalate ((id :: ids).map changed)).toList =
      some (changedTokens id ++ moreTokens ids) := by
  induction ids generalizing id with
  | nil => simpa [moreTokens] using tokens_changed (h id (by simp))
  | cons next ids ih =>
    have hor : pair '|' '|' = some (.op .or) := rfl
    have hrest := ih fun i hi => h i (List.mem_cons_of_mem id hi)
    have htext : (" || ".intercalate ((id :: next :: ids).map changed)).toList =
        (changed id).toList ++ ' ' :: '|' :: '|' :: ' ' ::
          (" || ".intercalate ((next :: ids).map changed)).toList := by
      simp [String.toList_intercalate]
    rw [htext, tokens_append_blank (tokens_changed (h id (by simp))), tokens_pair rfl hor,
      tokens_blank, hrest]
    simp [moreTokens]

theorem pieces_of_not_mem {cs : List Char} (h : '$' ∉ cs) : pieces cs = some (cs.map .char) := by
  induction cs with
  | nil => rfl
  | cons c cs ih =>
    rw [List.mem_cons, not_or] at h
    rw [pieces_cons fun he => h.1 he.symm, ih h.2]
    rfl

theorem not_dollar_of_name (h : isName w) : '$' ∉ w := by
  obtain ⟨c, cs, rfl, hc, hcs⟩ := isName_iff.mp h
  intro hmem
  rcases List.mem_cons.mp hmem with rfl | hmem
  · exact absurd hc (by decide)
  · exact absurd (hcs _ hmem) (by decide)

/-- **The condition on some path checks.** -/
theorem means_intercalate (hne : ids ≠ []) (h : ∀ id ∈ ids, isName id.toList) :
    ∃ s, Means (" || ".intercalate (ids.map changed)).toList s ∧ s.isBare = true ∧
      ∀ v, s.holds v = ids.any v.changed := by
  obtain ⟨id, ids, rfl⟩ := List.exists_cons_of_ne_nil hne
  have hdollar : '$' ∉ (" || ".intercalate ((id :: ids).map changed)).toList := by
    intro hmem
    rw [String.toList_intercalate] at hmem
    rcases Check.mem_intercalate hmem with hmem | ⟨l, hl, hmem⟩
    · exact absurd hmem (by decide)
    · simp only [List.map_map, List.mem_map, Function.comp] at hl
      obtain ⟨i, hi, rfl⟩ := hl
      have hname := not_dollar_of_name (h i hi)
      rw [toList_changed] at hmem
      simp [hname] at hmem
  have hfirst : Reads (.level 1) (changedTokens id ++ moreTokens ids) (changedExpr id)
      (moreTokens ids) := reads_changed (h id (by simp)) (head?_moreTokens ids)
  have hread := Reads.binary (by decide) hfirst
    (reads_more fun i hi => h i (List.mem_cons_of_mem id hi))
  refine ⟨_, .bare (pieces_of_not_mem hdollar) ⟨_, tokens_intercalate h, hread⟩, rfl, fun v => ?_⟩
  rw [Sense.holds, holds_foldl, holds_changedExpr, List.any_cons]

end Condition

end StepLoom
