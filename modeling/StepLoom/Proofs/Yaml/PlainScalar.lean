import StepLoom.Proofs.Yaml.Between

/-!
# Plain scalars are read back

A plain scalar is written as its words and the spaces between them, where a single space may become
a line end and the indentation of the next line (`Plainly`). `plain_reads` takes any such spelling
back to the text, whatever it is folded to, as long as what follows ends a plain scalar
(`PlainEnd`): the colon behind a key, or a line end with an indentation that does not reach the
scalar's level.
-/

namespace StepLoom

namespace Yaml

/-- Nothing that is passed over between tokens stands here. -/
def Opens (rest : List Char) : Prop := ∀ c ∈ rest.head?, isBlankOrBreak c = false ∧ c ≠ '#'

/-- A mark of a document stands here, if this is the beginning of a line. -/
def startsMark (rest : List Char) : Bool := (Cursor.ofText rest).isAtDocumentMark

@[simp] theorem Cursor.between_isAtDocumentMark {before rest : List Char} :
    (between before rest).isAtDocumentMark = startsMark rest := rfl

theorem Opens.not_isSpace {rest : List Char} (h : Opens rest) : rest.head?.all (!isSpace ·) := by
  cases rest with
  | nil => rfl
  | cons c more =>
    have hc := (h c rfl).1
    simp only [isBlankOrBreak, Bool.or_eq_false_iff] at hc
    simp [isSpace, hc.1.1.1.2]

theorem Opens.not_isBreak {rest : List Char} (h : Opens rest) : rest.head?.all (!isBreak ·) := by
  cases rest with
  | nil => rfl
  | cons c more =>
    have hc := (h c rfl).1
    simp only [isBlankOrBreak, Bool.or_eq_false_iff] at hc
    simp [hc.2]

theorem opens_cons {c : Char} (hsolid : isBlankOrBreak c = false) (hcomment : c ≠ '#')
    (rest : List Char) :
    Opens (c :: rest) := by
  intro d hd
  obtain rfl : c = d := by simpa using hd
  exact ⟨hsolid, hcomment⟩

/-- A word of a plain scalar. -/
structure IsPlainWord (w : List Char) : Prop where
  ne_nil : w ≠ []
  flat : Flat w
  solid : ∀ c ∈ w, isBlankOrBreak c = false
  no_comment : w.head? ≠ some '#'
  no_colon : w.getLast? ≠ some ':'

/-- The spellings of a plain text whose folded lines are indented by `level`. -/
inductive Plainly (level : Nat) : List Char → List Char → Prop
  | word {w : List Char} : IsPlainWord w → Plainly level w w
  | spaced {w cs t : List Char} (n : Nat) : IsPlainWord w → Plainly level cs t →
      Plainly level (w ++ List.replicate (n + 1) ' ' ++ cs) (w ++ List.replicate (n + 1) ' ' ++ t)
  | folded {w cs t : List Char} : IsPlainWord w → Plainly level cs t →
      Plainly level (w ++ ' ' :: cs) (w ++ '\n' :: List.replicate level ' ' ++ t)

namespace Cursor

variable {before rest cs t w : List Char} {level n : Nat} {indent : Int}

/-! ## Words -/

theorem plainLength_solid (hw : ∀ c ∈ w, isBlankOrBreak c = false)
    (hcolon : w.getLast? ≠ some ':') :
    plainLength false (w ++ rest) = w.length + plainLength false rest := by
  induction w with
  | nil => simp
  | cons c more ih =>
    have hmore : plainLength false (more ++ rest) = more.length + plainLength false rest := by
      apply ih fun d hd => hw d (List.mem_cons_of_mem c hd)
      cases more with
      | nil => simp
      | cons d more => simpa using hcolon
    have hends : (c == ':' && (more ++ rest).head?.all isBlankOrBreak) = false := by
      cases more with
      | nil =>
        have hc : c ≠ ':' := by simpa using hcolon
        simp [hc]
      | cons d more => simp [hw d (by simp)]
    rw [List.cons_append, plainLength]
    simp only [hw c (by simp), hends, Bool.false_and, Bool.or_false, Bool.false_eq_true, if_false,
      hmore, List.length_cons]
    omega

/-! ## Gaps -/

theorem plainBreaks_blanks {fuel : Nat} (hrest : Opens rest) (hfuel : n ≤ fuel) :
    plainBreaks fuel (between before (List.replicate n ' ' ++ rest)) =
      (some [], between (before ++ List.replicate n ' ') rest) := by
  induction n generalizing before fuel with
  | zero =>
    cases fuel with
    | zero => simp [plainBreaks]
    | succ fuel =>
      cases rest with
      | nil => simp [plainBreaks]
      | cons c more =>
        have hspace : isSpace c = false := by simpa using hrest.not_isSpace
        have hbreak : isBreak c = false := by simpa using hrest.not_isBreak
        simp [plainBreaks, hspace, hbreak]
  | succ n ih =>
    obtain ⟨fuel, rfl⟩ : ∃ m, fuel = m + 1 := ⟨fuel - 1, by omega⟩
    rw [List.replicate_succ, List.cons_append, plainBreaks]
    simp only [between_rest, step_between]
    rw [if_pos (by decide), ih (by omega)]
    simp

/-- Spaces on a line. -/
theorem plainGap_blanks (before : List Char) (n : Nat) (hrest : Opens rest) :
    plainGap (between before (List.replicate n ' ' ++ rest)) =
      ((List.replicate n ' ', false), between (before ++ List.replicate n ' ') rest) := by
  have hblanks : ∀ c ∈ List.replicate n ' ', isSpace c := by
    intro c hc
    obtain rfl := List.eq_of_mem_replicate hc
    rfl
  rw [plainGap, word_between hblanks hrest.not_isSpace]
  cases rest with
  | nil => rfl
  | cons c more =>
    have hbreak : isBreak c = false := by simpa using hrest.not_isBreak
    simp [hbreak]

/-- A line end and the indentation of the next line. -/
theorem plainGap_line (before : List Char) (hrest : Opens rest)
    (hmark : n = 0 → startsMark rest = false) :
    plainGap (between before ('\n' :: List.replicate n ' ' ++ rest)) =
      (([' '], true), between (before ++ '\n' :: List.replicate n ' ') rest) := by
  have hstarts : startsMark (List.replicate n ' ' ++ rest) = false := by
    cases n with
    | zero => simpa using hmark rfl
    | succ n => rfl
  rw [plainGap, word_of_not (by rfl)]
  simp only [between_rest, List.cons_append]
  rw [if_pos (by decide), step_between, between_isAtDocumentMark, hstarts, if_neg (by decide),
    between_room, plainBreaks_blanks hrest (by simp)]
  simp [fold]

/-! ## Whole scalars -/

/-- What ends a plain scalar: nothing of it is text, and the gap in it, if there is one, leads out
of the indentation. -/
structure PlainEnd (indent : Int) (tail : List Char) (crossed : Bool) (gone left : List Char) :
    Prop where
  no_text : plainLength false tail = 0
  gap : ∀ before, ∃ gap,
    plainGap (between before tail) = ((gap, crossed), between (before ++ gone) left) ∧
      (gap = [] ∨ (columnOf (before ++ gone) : Int) < indent)

theorem plainEnd_colon {c : Char} (hc : isBlankOrBreak c) :
    PlainEnd indent (':' :: c :: rest) false [] (':' :: c :: rest) where
  no_text := by simp [plainLength, hc]
  gap before := by
    have hopens : Opens (':' :: c :: rest) := opens_cons (by decide) (by decide) _
    exact ⟨[], by simpa using plainGap_blanks before 0 hopens, Or.inl rfl⟩

theorem plainEnd_line (hrest : Opens rest) (hmark : n = 0 → startsMark rest = false)
    (hn : (n : Int) < indent) :
    PlainEnd indent ('\n' :: List.replicate n ' ' ++ rest) true
    ('\n' :: List.replicate n ' ') rest where
  no_text := by
    have hbreak : isBlankOrBreak '\n' = true := by decide
    simp [plainLength, hbreak]
  gap before := by
    refine ⟨[' '], plainGap_line before hrest hmark, Or.inr ?_⟩
    rw [columnOf_line (by decide) (flat_blanks n), List.length_replicate]
    exact hn

theorem opens_of_plainly (rest : List Char) (h : Plainly level cs t) :
    Opens (t ++ rest) ∧ t ≠ [] := by
  have hword : ∀ {w more : List Char}, IsPlainWord w → Opens (w ++ more) ∧ w ≠ [] := by
    intro w more hw
    refine ⟨fun c hc => ?_, hw.ne_nil⟩
    obtain ⟨d, v, rfl⟩ := List.exists_cons_of_ne_nil hw.ne_nil
    obtain rfl : d = c := by simpa using hc
    exact ⟨hw.solid d (by simp), by simpa using hw.no_comment⟩
  cases h with
  | word hw => exact hword hw
  | spaced n hw _ =>
    rw [List.append_assoc, List.append_assoc]
    exact ⟨(hword hw).1, by simp [hw.ne_nil]⟩
  | folded hw _ =>
    rw [List.append_assoc, List.append_assoc]
    exact ⟨(hword hw).1, by simp⟩

theorem has_comment_of_opens (h : Opens rest) :
    (between before rest).has (· == '#') 0 = false := by
  cases rest with
  | nil => rfl
  | cons c more => simpa [has] using (h c rfl).2

section FirstWord

variable {fuel : Nat} {gap gone left : List Char} {crossed : Bool}

/-- The first word is found. -/
theorem plain_length (hw : IsPlainWord w) (hrest : plainLength false rest = 0) :
    (if (between before (w ++ rest)).has (· == '#') 0 then 0 else plainLength false (w ++ rest)) =
      w.length := by
  have hspelled : Plainly 0 w w := .word hw
  have hopens := (opens_of_plainly rest hspelled).1
  rw [has_comment_of_opens hopens, if_neg (by decide), plainLength_solid hw.solid hw.no_colon,
    hrest, Nat.add_zero]

/-- The last word. -/
theorem plain_last (hw : IsPlainWord w) (hend : PlainEnd indent rest crossed gone left) :
    plain false indent (fuel + 1) (between before (w ++ rest)) =
      ((w, crossed), between (before ++ w ++ gone) left) := by
  obtain ⟨gap, hgap, hstop⟩ := hend.gap (before ++ w)
  have hpos : w.length ≠ 0 := by simpa using hw.ne_nil
  rw [plain]
  simp only [between_rest, plain_length hw hend.no_text, hpos, if_false, List.take_left,
    skip_between rfl, hgap, between_column]
  rw [if_pos]
  obtain rfl | hcolumn := hstop
  · rfl
  · simp only [hcolumn, decide_true, Bool.not_false, Bool.and_true, Bool.or_true]

/-- A word that more words follow. -/
theorem plain_more {tail : List Char} {last : Bool} {e : Cursor} (before : List Char)
    (hw : IsPlainWord w) (hrest : plainLength false rest = 0)
    (hgap : ∀ before,
      plainGap (between before rest) = ((gap, crossed), between (before ++ gone) left))
    (hne : gap ≠ []) (hleft : Opens left) (htext : plainLength false left ≠ 0)
    (hcolumn : indent ≤ columnOf (before ++ w ++ gone))
    (hmore : plain false indent fuel (between (before ++ w ++ gone) left) = ((tail, last), e)) :
    plain false indent (fuel + 1) (between before (w ++ rest)) = ((w ++ gap ++ tail, last), e) := by
  have hpos : w.length ≠ 0 := by simpa using hw.ne_nil
  rw [plain]
  simp only [between_rest, plain_length hw hrest, hpos, if_false, List.take_left,
    skip_between rfl, hgap, between_column]
  rw [if_neg, if_neg (by simpa [has_comment_of_opens hleft] using htext), hmore]
  have hnot : ¬(columnOf (before ++ w ++ gone) : Int) < indent := by omega
  rw [has_comment_of_opens hleft, decide_eq_false hnot]
  simp [hne]

end FirstWord

theorem plainLength_pos (h : Plainly level cs t) : plainLength false (t ++ rest) ≠ 0 := by
  have hword : ∀ {w more : List Char}, IsPlainWord w → plainLength false (w ++ more) ≠ 0 := by
    intro w more hw
    have hpos := List.length_pos_iff.mpr hw.ne_nil
    rw [plainLength_solid hw.solid hw.no_colon]
    omega
  cases h with
  | word hw => exact hword hw
  | spaced n hw _ =>
    rw [List.append_assoc, List.append_assoc]
    exact hword hw
  | folded hw _ =>
    rw [List.append_assoc, List.append_assoc]
    exact hword hw

/-- **A plain scalar is read back from any of its spellings.** -/
theorem plain_reads {tail gone left : List Char} {crossed : Bool} {fuel : Nat}
    (h : Plainly level cs t) (hend : PlainEnd indent tail crossed gone left)
    (hlevel : 0 < level) (hindent : indent ≤ level) (hcolumn : indent ≤ columnOf before + 1)
    (hfuel : t.length ≤ fuel) :
    plain false indent fuel (between before (t ++ tail)) =
      ((cs, crossed), between (before ++ t ++ gone) left) := by
  induction h generalizing before fuel with
  | word hw =>
    have hpos := List.length_pos_iff.mpr hw.ne_nil
    obtain ⟨fuel, rfl⟩ : ∃ m, fuel = m + 1 := ⟨fuel - 1, by omega⟩
    exact plain_last hw hend
  | @spaced w cs t n hw hmore ih =>
    have hpos := List.length_pos_iff.mpr hw.ne_nil
    obtain ⟨fuel, rfl⟩ : ∃ m, fuel = m + 1 := ⟨fuel - 1, by simp at hfuel; omega⟩
    obtain ⟨hopens, -⟩ := opens_of_plainly tail hmore
    have hcol : columnOf (before ++ w ++ List.replicate (n + 1) ' ') =
        columnOf before + w.length + (n + 1) := by
      rw [columnOf_append_flat (flat_blanks _), columnOf_append_flat hw.flat, List.length_replicate]
    have hblank : plainLength false (List.replicate (n + 1) ' ' ++ (t ++ tail)) = 0 := by
      simp [plainLength, isBlankOrBreak, List.replicate_succ]
    have htail := @ih (before ++ w ++ List.replicate (n + 1) ' ') fuel (by omega)
      (by simp at hfuel; omega)
    simpa using plain_more before hw hblank (fun b => plainGap_blanks b (n + 1) hopens) (by simp)
      hopens (plainLength_pos hmore) (by omega) htail
  | @folded w cs t hw hmore ih =>
    have hpos := List.length_pos_iff.mpr hw.ne_nil
    obtain ⟨fuel, rfl⟩ : ∃ m, fuel = m + 1 := ⟨fuel - 1, by simp at hfuel; omega⟩
    obtain ⟨hopens, -⟩ := opens_of_plainly tail hmore
    have hcol : columnOf (before ++ w ++ '\n' :: List.replicate level ' ') = level := by
      rw [columnOf_line (by decide) (flat_blanks _), List.length_replicate]
    have hline : plainLength false ('\n' :: List.replicate level ' ' ++ (t ++ tail)) = 0 := by
      simp [plainLength, isBlankOrBreak, isBreak]
    have htail := @ih (before ++ w ++ '\n' :: List.replicate level ' ') fuel (by omega)
      (by simp at hfuel; omega)
    simpa using plain_more before hw hline (fun b => plainGap_line b hopens (by omega)) (by simp)
      hopens (plainLength_pos hmore) (by omega) htail

end Cursor

end Yaml

end StepLoom
