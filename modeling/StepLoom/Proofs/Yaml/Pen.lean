import StepLoom.Proofs.Yaml.Nested

/-!
# What the pen writes

`Pen.Adds` says which text the pen has added on its way from one state to another. Between its marks
a pen is in one of three states: behind a mark or a key, where a value comes next (`Pen.Behind`),
behind a value (`Pen.Done`), or at the beginning of a column, where an entry may start (`Pen.Free`).
-/

namespace StepLoom

namespace Yaml

namespace Pen

variable {p p' p'' : Pen} {S T cs : List Char} {c : Char} {k n level : Nat} {marked ended : Bool}

/-- The pen has added a text. -/
def Adds (p p' : Pen) (S : List Char) : Prop := p'.out.toList = p.out.toList ++ S

theorem Adds.refl (p : Pen) : Adds p p [] := (List.append_nil _).symm

theorem Adds.trans (h : Adds p p' S) (h' : Adds p' p'' T) : Adds p p'' (S ++ T) := by
  rw [Adds, h', h, List.append_assoc]

/-- Only one text can have been added. -/
theorem Adds.unique (h : Adds p p' S) (h' : Adds p p' T) : S = T :=
    List.append_cancel_left (h.symm.trans h')

theorem adds_text (p : Pen) (cs : List Char) : Adds p (p.text cs) cs := by simp [Adds, text]

@[simp] theorem text_nil (p : Pen) : p.text [] = p := by simp [text]

theorem adds_raw (p : Pen) (cs : List Char) : Adds p (p.raw cs) cs := by simp [Adds, raw]

theorem adds_lineBreak (p : Pen) (c : Char) : Adds p (p.lineBreak c) [c] := by
    simp [Adds, lineBreak]

/-- Several line ends. -/
theorem adds_lineBreaks (p : Pen) (cs : List Char) : Adds p (cs.foldl Pen.lineBreak p) cs := by
  induction cs generalizing p with
  | nil => exact Adds.refl p
  | cons c rest ih => exact (adds_lineBreak p c).trans (ih (p.lineBreak c))

/-- Marks that need no blank in front of them. -/
theorem adds_mark {s : String} {spaced keeps : Bool} (h : (p.blank || !spaced) = true) :
    Adds p (p.mark s spaced keeps) s.toList := by
  simp [Adds, mark, h]

theorem adds_spaced {s : String} {keeps : Bool} (h : p.blank = false) :
    Adds p (p.mark s true keeps) (' ' :: s.toList) := by
  simp [Adds, mark, h]

/-! ## Lines -/

/-- At the beginning of a column, with nothing but blanks in front of it on its line. -/
structure Free (column : Nat) (p : Pen) : Prop where
  column_eq : p.column = column
  blank : p.blank = true
  indention : p.indention = true

/-- The pen goes to the beginning of a column, and adds a text on its way. -/
structure Goes (p : Pen) (column : Nat) (S : List Char) : Prop where
  adds : Adds p (p.indentTo column) S
  free : Free column (p.indentTo column)
  openEnded : (p.indentTo column).openEnded = p.openEnded

/-- On a free line. -/
theorem Free.goes (h : Free 0 p) (k : Nat) : Goes p k (List.replicate k ' ') := by
  have hstay : (!p.indention || decide (k < p.column) || p.column == k && !p.blank) = false := by
    simp [h.column_eq, h.blank, h.indention]
  have hindent : p.indentTo k = if p.column < k then
      { p with
        out := p.out ++ String.ofList (List.replicate (k - p.column) ' ')
        column := k
        blank := true }
      else p := by
    rw [indentTo, hstay]
    rfl
  by_cases hk : 0 < k
  · rw [h.column_eq, if_pos hk, Nat.sub_zero] at hindent
    refine ⟨?_, ?_, ?_⟩ <;> rw [hindent]
    · simp [Adds]
    · exact ⟨rfl, rfl, h.indention⟩
  · obtain rfl : k = 0 := by omega
    rw [h.column_eq, if_neg (Nat.lt_irrefl 0)] at hindent
    refine ⟨?_, ?_, ?_⟩ <;> rw [hindent]
    · exact Adds.refl p
    · exact h

theorem free_lineBreak (p : Pen) (c : Char) : Free 0 (p.lineBreak c) := ⟨rfl, rfl, rfl⟩

/-- In a new line. -/
theorem goes_line (h : p.indention = false ∨ k < p.column) :
    Goes p k ('\n' :: List.replicate k ' ') := by
  have hnew : (!p.indention || decide (k < p.column) || p.column == k && !p.blank) = true := by
    obtain h | h := h <;> simp [h]
  have hindent : p.indentTo k = (p.lineBreak '\n').indentTo k := by
    have hstay : (!(p.lineBreak '\n').indention || decide (k < (p.lineBreak '\n').column) ||
        (p.lineBreak '\n').column == k && !(p.lineBreak '\n').blank) = false := by
      simp [lineBreak]
    rw [indentTo, indentTo, hnew, hstay]
    rfl
  have hgoes := (free_lineBreak p '\n').goes k
  refine ⟨?_, ?_, ?_⟩ <;> rw [hindent]
  · exact (adds_lineBreak p '\n').trans hgoes.adds
  · exact hgoes.free
  · exact hgoes.openEnded

/-! ## Before and behind values -/

/-- Behind a mark at column `n`, where a collection may begin, or behind a key. -/
structure Behind (n : Nat) (marked : Bool) (p : Pen) : Prop where
  blank : p.blank = false
  openEnded : p.openEnded = false
  indention : p.indention = marked
  column : marked → p.column = n + 1

/-- Behind a value. -/
structure Done (ended : Bool) (p : Pen) : Prop where
  free : ended → Free 0 p
  used : ended = false → p.indention = false
  openEnded : p.openEnded → ended

/-- To what follows a value. -/
theorem Done.goes (h : Done ended p) (k : Nat) : Goes p k (gapTo ended k) := by
  cases ended with
  | false => exact goes_line (Or.inl (h.used rfl))
  | true => exact (h.free rfl).goes k

/-- To the entries of a value. -/
theorem Behind.goes (h : Behind n marked p) (hmarked : marked → k = n + 2) :
    Goes p k (leadTo marked k) := by
  cases marked with
  | false => exact goes_line (Or.inl h.indention)
  | true =>
    obtain rfl := hmarked rfl
    have hcolumn := h.column rfl
    have hstay :
        (!p.indention || decide (n + 2 < p.column) || p.column == n + 2 && !p.blank) = false := by
      simp [h.indention, hcolumn]
    have hindent : p.indentTo (n + 2) = { p with
        out := p.out ++ String.ofList (List.replicate (n + 2 - p.column) ' '), column :=
          n + 2, blank := true } := by
      rw [indentTo, hstay]
      simp [hcolumn]
    have hone : n + 2 - p.column = 1 := by omega
    refine ⟨?_, ?_, ?_⟩ <;> rw [hindent]
    · simp [Adds, hone, leadTo]
    · exact ⟨rfl, rfl, h.indention⟩

/-- A mark at the beginning of a column. -/
theorem Free.mark (h : Free n p) {s : String} (hs : s.length = 1) :
    Adds p (p.mark s true true) s.toList ∧ Behind n true (p.mark s true true) := by
  refine ⟨adds_mark (by simp [h.blank]), rfl, rfl, ?_, fun _ => ?_⟩
  · simp [Pen.mark, h.indention]
  · simp [Pen.mark, h.blank, h.column_eq, hs]

/-- The colon behind a key. -/
theorem adds_colon (p : Pen) (n : Nat) :
    Adds p (p.mark ":" false false) [':'] ∧ Behind n false (p.mark ":" false false) := by
  refine ⟨adds_mark (by simp), rfl, rfl, ?_, nofun⟩
  simp [Pen.mark]

end Pen

end Yaml

end StepLoom
