import StepLoom.Yaml.Cursor
import Mathlib.Tactic.Common

/-!
# Cursors between two parts of a text

All cursors that a reader meets stand somewhere in one text: between what has been read and what is
left (`Cursor.between`). Line, column and index are those of the part that has been read, so moving
on is appending to it.
-/

namespace StepLoom

namespace Yaml

/-- The characters that take no column. -/
def isMarkOfOrder (c : Char) : Bool := c.toNat == 0xFEFF

/-- The line in which a text ends, from zero on. -/
def lineOf (before : List Char) : Nat := before.countP isBreak

/-- The column in which a text ends: the width of its last line. -/
def columnOf (before : List Char) : Nat :=
  (before.reverse.takeWhile fun c => !isBreak c).countP fun c => !isMarkOfOrder c

/-- Neither a line end nor without a column. -/
def Flat (cs : List Char) : Prop := ∀ c ∈ cs, isBreak c = false ∧ isMarkOfOrder c = false

/-- The text ends with a line end. -/
def EndsLine (text : List Char) : Prop := ∃ front b, text = front ++ [b] ∧ isBreak b

variable {before cs ds : List Char} {c b : Char} {n : Nat}

theorem EndsLine.append (h : EndsLine ds) (cs : List Char) : EndsLine (cs ++ ds) := by
  obtain ⟨front, b, rfl, hb⟩ := h
  exact ⟨cs ++ front, b, by simp, hb⟩

theorem flat_cons : Flat (c :: cs) ↔ (isBreak c = false ∧ isMarkOfOrder c = false) ∧ Flat cs :=
  List.forall_mem_cons

theorem flat_append : Flat (cs ++ ds) ↔ Flat cs ∧ Flat ds := List.forall_mem_append

theorem flat_blanks (n : Nat) : Flat (List.replicate n ' ') := by
  intro c hc
  obtain rfl := List.eq_of_mem_replicate hc
  decide

theorem lineOf_append : lineOf (before ++ cs) = lineOf before + cs.countP isBreak :=
  List.countP_append

theorem countP_of_flat (h : Flat cs) : cs.countP isBreak = 0 :=
  List.countP_eq_zero.mpr fun c hc => by simp [(h c hc).1]

theorem columnOf_snoc_break (before : List Char) (h : isBreak b) :
    columnOf (before ++ [b]) = 0 := by
  simp [columnOf, h]

theorem columnOf_snoc (h : isBreak c = false) :
    columnOf (before ++ [c]) = columnOf before + if isMarkOfOrder c then 0 else 1 := by
  rw [columnOf, List.reverse_append, List.reverse_singleton, List.singleton_append,
    List.takeWhile_cons_of_pos (by simp [h]), List.countP_cons, columnOf]
  cases isMarkOfOrder c <;> rfl

theorem columnOf_append_flat (h : Flat cs) : columnOf (before ++ cs) =
    columnOf before + cs.length := by
  induction cs generalizing before with
  | nil => simp
  | cons c rest ih =>
    obtain ⟨⟨hb, hm⟩, hrest⟩ := flat_cons.mp h
    rw [List.append_cons, ih hrest, columnOf_snoc hb, hm, List.length_cons]
    simp only [Bool.false_eq_true, if_false]
    omega

/-- A line that begins behind a line end. -/
theorem columnOf_line (hb : isBreak b) (h : Flat cs) :
    columnOf (before ++ b :: cs) = cs.length := by
  rw [List.append_cons, columnOf_append_flat h, columnOf_snoc_break _ hb, Nat.zero_add]

theorem columnOf_endsLine (before : List Char) (h : EndsLine cs) : columnOf (before ++ cs) = 0 := by
  obtain ⟨front, b, rfl, hb⟩ := h
  rw [← List.append_assoc, columnOf_snoc_break _ hb]

namespace Cursor

/-- The cursor in a text, behind its part `before`. -/
def between (before rest : List Char) : Cursor where
  rest := rest
  size := before.length + rest.length
  line := lineOf before
  column := columnOf before
  index := before.length

variable {rest : List Char}

theorem ofText_eq (text : List Char) : ofText text = between [] text := by
  simp [ofText, between, lineOf, columnOf]

@[simp] theorem between_rest : (between before rest).rest = rest := rfl

@[simp] theorem between_line : (between before rest).line = lineOf before := rfl

@[simp] theorem between_column : (between before rest).column = columnOf before := rfl

@[simp] theorem between_index : (between before rest).index = before.length := rfl

@[simp] theorem between_room : (between before rest).room = rest.length := by
  simp [room, between]

@[simp] theorem step_between : (between before (c :: rest)).step =
  between (before ++ [c]) rest := by
  rw [step, between]
  dsimp only
  by_cases hb : isBreak c
  · rw [if_pos hb]
    simp [between, lineOf, hb, columnOf_snoc_break _ hb]
    omega
  · rw [Bool.not_eq_true] at hb
    rw [if_neg (by simp [hb])]
    by_cases hm : c.toNat = 0xFEFF
    · simp [between, lineOf, hb, columnOf_snoc hb, isMarkOfOrder, hm]
      omega
    · simp [between, lineOf, hb, columnOf_snoc hb, isMarkOfOrder, hm]
      omega

theorem skip_between (h : cs.length = n) :
    (between before (cs ++ rest)).skip n = between (before ++ cs) rest := by
  induction cs generalizing before n with
  | nil =>
    subst h
    simp [skip]
  | cons c more ih =>
    subst h
    rw [List.length_cons, skip, List.cons_append, step_between, ih rfl, List.append_assoc,
      List.singleton_append]

theorem takeWhile_append_of_head {p : Char → Bool} (hcs : ∀ c ∈ cs, p c)
    (hrest : rest.head?.all (!p ·)) : (cs ++ rest).takeWhile p = cs := by
  rw [List.takeWhile_append_of_pos hcs]
  cases rest with
  | nil => simp
  | cons d more =>
    have hd : p d = false := by simpa using hrest
    simp [hd]

/-- Passing over the characters of a class. -/
theorem skipWhile_between {p : Char → Bool} (hcs : ∀ c ∈ cs, p c) (hrest : rest.head?.all (!p ·)) :
    (between before (cs ++ rest)).skipWhile p = between (before ++ cs) rest := by
  rw [skipWhile, between_rest, takeWhile_append_of_head hcs hrest]
  exact skip_between rfl

theorem word_between {p : Char → Bool} (hcs : ∀ c ∈ cs, p c) (hrest : rest.head?.all (!p ·)) :
    (between before (cs ++ rest)).word p = (cs, between (before ++ cs) rest) := by
  rw [word, between_rest, takeWhile_append_of_head hcs hrest]
  exact Prod.ext rfl (skip_between rfl)

theorem skipWhile_of_not {p : Char → Bool} (hrest : rest.head?.all (!p ·)) :
    (between before rest).skipWhile p = between before rest := by
  exact skipWhile_between (List.forall_mem_nil _) hrest |>.trans (by simp)

theorem word_of_not {p : Char → Bool} (hrest : rest.head?.all (!p ·)) :
    (between before rest).word p = ([], between before rest) := by
  exact word_between (List.forall_mem_nil _) hrest |>.trans (by simp)

end Cursor

end Yaml

end StepLoom
