import StepLoom.Proofs.Yaml.Nested

/-!
# The tokens of a document

A document is a comment line, a blank line, the entries of a mapping, and perhaps a mark at its end.
Its tokens are those of the mapping.
-/

namespace StepLoom

namespace Yaml

open Cursor (between)
open Lexer

variable {line rest before S text : List Char} {us : List Token} {ended keyAllowed : Bool}
  {l m : Nat → Lexer}
  {c : Nat}

/-- A comment and a blank line. -/
def IsHeader (text : List Char) : Prop :=
  ∃ line, text = '#' :: line ++ ['\n', '\n'] ∧ ∀ c ∈ line, isBreak c = false

namespace Lexer

/-! ## The beginning -/

theorem toNextToken_header {fuel : Nat} (h : ∀ c ∈ line, isBreak c = false) (hrest : Opens rest) :
    toNextToken (fuel + 3)
    (standing [] ('#' :: line ++ ('\n' :: '\n' :: rest)) [] (-1) [] true [] c) =
      standing ('#' :: line ++ ['\n', '\n']) rest [] (-1) [] true [] c := by
  have hline : ∀ ch ∈ '#' :: line, (fun ch => !isBreak ch) ch = true := by
    intro ch hch
    obtain rfl | hch := List.mem_cons.mp hch
    · decide
    · simp [h ch hch]
  have hcomment : (between [] ('#' :: line ++ ('\n' :: '\n' :: rest))).skipSpaces.skipComment =
      between ('#' :: line) ('\n' :: '\n' :: rest) := by
    rw [Cursor.skipSpaces, Cursor.skipWhile_of_not (by rfl), Cursor.skipComment, if_pos (by rfl),
      Cursor.toLineEnd, Cursor.skipWhile_between hline (by rfl), List.nil_append]
  have hend : (between ('#' :: line) ('\n' :: '\n' :: rest)).isAtLineEnd = true := rfl
  have hmore : (between ('#' :: line) ('\n' :: '\n' :: rest)).isAtEnd = false := rfl
  have hgap : toNextToken (fuel + 2) (standing ('#' :: line ++ ['\n'])
      (('\n' :: List.replicate 0 ' ') ++ rest) [] (-1) [] true [] c) = _ :=
    toNextToken_gap (Gap.line 0) hrest (by simp)
  rw [toNextToken]
  simp only [standing_cursor, hcomment, hend, hmore, Bool.not_false, Bool.and_self, if_true,
    Cursor.step_between]
  refine hgap.trans ?_
  simp

/-- The lines in front of a document are passed over. -/
theorem comes_header (h : IsHeader text) (hrest : Opens rest)
    (hreads : Reads (standing text rest [] (-1) [] true []) l) :
    Comes (standing [] (text ++ rest) [] (-1) [] true []) l := by
  obtain ⟨line, rfl, hline⟩ := h
  have hsplit : '#' :: line ++ ['\n', '\n'] ++ rest = '#' :: line ++ ('\n' :: '\n' :: rest) := by
    simp
  have hpast : ∀ c, ∃ c', exec prepare (standing [] ('#' :: line ++ ['\n', '\n'] ++ rest) []
    (-1) [] true [] c) =
      (.ok (), standing ('#' :: line ++ ['\n', '\n']) rest [] (-1) [] true [] c') := by
    intro c
    obtain ⟨c', hc'⟩ : ∃ c',
        settle (standing [] ('#' :: line ++ ('\n' :: '\n' :: rest)) [] (-1) [] true [] c) =
          standing [] ('#' :: line ++ ('\n' :: '\n' :: rest)) [] (-1) [] true [] c' := ⟨_, rfl⟩
    obtain ⟨fuel, hfuel⟩ : ∃ fuel,
        (between [] ('#' :: line ++ ('\n' :: '\n' :: rest))).room + 1 = fuel + 3 :=
      ⟨line.length + rest.length + 1, by simp; omega⟩
    refine ⟨c', ?_⟩
    rw [hsplit, prepare, exec_bind_ok (exec_modify _), hc', exec_bind_ok (exec_modify _),
      standing_cursor, hfuel, toNextToken_header hline hrest]
    rfl
  exact (comes_of_prepare (fun _ _ => by simp) hpast).trans hreads

/-! ## The end -/

/-- From here on the lexer finishes with the tokens. -/
def Finishes (l : Nat → Lexer) (us : List Token) : Prop :=
  ∀ fuel c, ∃ l', exec (resume (fuel + 1)) (l c) = (.ok (), l') ∧ l'.tokens = us.toArray

theorem exec_leaveRoot :
    exec (leaveBlocks (-1)) (standing before rest us 0 [-1] keyAllowed [] c) =
      (.ok (), standing before rest (us ++ [.blockEnd]) (-1) [] keyAllowed [] c) := by
  rw [leaveBlocks, exec_modify]
  simp [standing, Lexer.inFlow, closeBlocks]

theorem finishes_root : Finishes (standing before [] us 0 [-1] keyAllowed [])
    (us ++ [.blockEnd, .streamEnd]) := by
  intro fuel c
  refine ⟨standing before [] (us ++ [.blockEnd] ++ [.streamEnd]) (-1) [] keyAllowed [] c,
    ?_, by simp⟩
  rw [resume, exec_bind_ok exec_get]
  change exec finish _ = _
  rw [finish, exec_bind_ok exec_leaveRoot, exec_bind_ok exec_forget, exec_emit]

theorem finishes_outside : Finishes (standing before [] us (-1) [] keyAllowed [])
    (us ++ [.streamEnd]) := by
  intro fuel c
  refine ⟨standing before [] (us ++ [.streamEnd]) (-1) [] keyAllowed [] c, ?_, rfl⟩
  rw [resume, exec_bind_ok exec_get]
  change exec finish _ = _
  rw [finish, exec_bind_ok (show exec (leaveBlocks (-1))
    (standing before [] us (-1) [] keyAllowed [] c) =
    (.ok (), standing before [] us (-1) [] keyAllowed [] c) from rfl), exec_bind_ok exec_forget,
      exec_emit]

/-- The mark at the end of a document. -/
theorem reads_documentEnd (hcolumn : columnOf before = 0) :
    Reads (standing before ['.', '.', '.', '\n'] us 0 [-1] true [])
      (standing (before ++ ['.', '.', '.', '\n']) [] (us ++ [.blockEnd, .documentEnd])
      (-1) [] true []) := by
  have hgap : Comes (standing (before ++ ['.', '.', '.']) (('\n' :: List.replicate 0 ' ') ++ [])
      (us ++ [.blockEnd, .documentEnd]) (-1) [] false []) _ :=
    comes_gap (Gap.line 0) (by simp [Opens]) fun _ hq => absurd hq List.not_mem_nil
  rw [leave_of_le (by omega)] at hgap
  have htoken : ∀ c, exec (token '.') (standing before ['.', '.', '.', '\n'] us 0 [-1] true [] c) =
      (.ok (), standing (before ++ ['.', '.', '.']) ['\n'] (us ++ [.blockEnd, .documentEnd])
        (-1) [] false [] c) := by
    intro c
    have hmark : exec (token '.') (standing before ['.', '.', '.', '\n'] us 0 [-1] true [] c) =
        exec (documentMark .documentEnd)
          (standing before ['.', '.', '.', '\n'] us 0 [-1] true [] c) := by
      rw [token, exec_bind_ok exec_get]
      simp [hcolumn, Cursor.isAtMark, Cursor.endsWordAt, isBlankOrBreak, isBreak]
    rw [hmark, documentMark, exec_bind_ok exec_leaveRoot, exec_bind_ok exec_forget,
      exec_bind_ok (exec_allowKey false), mark, exec_bind_ok (exec_emit _), exec_modify]
    simp [standing, Cursor.skip]
  refine reads_of_token htoken (fun _ => rfl) (fun _ _ => by simp) ?_
  simpa [stillPossible] using hgap

end Lexer

/-! ## The whole text -/

theorem Lexer.Finishes.ofText (h : Finishes m us) (hheader : IsHeader text)
    (hindex : ∀ c, (m c).cursor.index ≤ (text ++ rest).length)
    (hcomes : Comes (standing [] (text ++ rest) [] (-1) [] true []) m) :
    Tokens.ofText (text ++ rest) = ⟨us, none⟩ := by
  obtain ⟨s, hsteps, hrun⟩ := hcomes
  have hfew : s ≤ (text ++ rest).length := by
    have hfirst := hsteps 0 0
    have hlast := hindex 0
    simp only [standing_cursor, Cursor.between_index, List.length_nil, Nat.zero_add] at hfirst
    omega
  obtain ⟨fuel, hfuel⟩ : ∃ fuel, (text ++ rest).length = fuel + s :=
    ⟨_, (Nat.sub_add_cancel hfew).symm⟩
  obtain ⟨c, hc⟩ := hrun fuel 0
  obtain ⟨l', hl', htokens⟩ := h fuel c
  have hcursor : (if (Cursor.ofText (text ++ rest)).has (fun ch => ch.toNat == 0xFEFF) 0
      then (Cursor.ofText (text ++ rest)).step else Cursor.ofText (text ++ rest)) =
      between [] (text ++ rest) := by
    obtain ⟨line, rfl, -⟩ := hheader
    rw [if_neg (by simp [Cursor.has, Cursor.ofText]), Cursor.ofText_eq]
  have hexec : exec (run ((text ++ rest).length + 1))
      (standing [] (text ++ rest) [] (-1) [] true [] 0) = (.ok (), l') := by
    rw [← hl', ← hc, hfuel]
    congr 2
    omega
  have hlast :
      (run ((text ++ rest).length + 1)).run.run { cursor := between [] (text ++ rest) } =
        (.ok (), l') := hexec
  rw [Tokens.ofText]
  simp only [hcursor, hlast]
  simp [htokens]

theorem columnOf_header {header : List Char} (h : IsHeader header) : columnOf header = 0 := by
  obtain ⟨line, rfl, -⟩ := h
  exact columnOf_endsLine [] ⟨'#' :: line ++ ['\n'], '\n', by simp, by decide⟩

/-- **The tokens of a document**, which is a mapping. -/
theorem tokens_document {header : List Char} (h : EntryText .blockMapping 0 S ended us)
    (hheader : IsHeader header) :
    Tokens.ofText (header ++ (S ++ gapTo ended 0)) =
      ⟨.blockMapping :: us ++ [.blockEnd, .streamEnd], none⟩ := by
  have hreads := h.reads header [] 0 [] (-1) [] (columnOf_header hheader) (by omega) (Nat.le_refl 0)
    ⟨by simp [Opens], fun _ _ => rfl⟩
  rw [leave_of_le (Int.le_refl _)] at hreads
  have hcomes := comes_header hheader (h.starts 0 (gapTo ended 0 ++ [])).1 hreads
  rw [List.append_nil] at hcomes
  have hfinishes : Finishes (standing (header ++ (S ++ gapTo ended 0)) [] (.blockMapping :: us) 0
    [-1]
      true []) (.blockMapping :: us ++ [.blockEnd, .streamEnd]) := finishes_root
  exact hfinishes.ofText hheader (by simp) hcomes

/-- **The tokens of a document** with a mark at its end, which is a mapping. -/
theorem tokens_document_marked {header : List Char} (h : EntryText .blockMapping 0 S true us)
    (hheader : IsHeader header) :
    Tokens.ofText (header ++ (S ++ ['.', '.', '.', '\n'])) =
      ⟨.blockMapping :: us ++ [.blockEnd, .documentEnd, .streamEnd], none⟩ := by
  have hreads := h.reads header ['.', '.', '.', '\n'] 0 [] (-1) [] (columnOf_header hheader)
    (by omega)
    (Nat.le_refl 0) ⟨opens_cons (by decide) (by decide) _, by simp⟩
  rw [leave_of_le (Int.le_refl _)] at hreads
  have hline : columnOf (header ++ (S ++ gapTo true 0)) = 0 := columnOf_follow header h.ends 0
  have hcomes := comes_header hheader (h.starts 0 (gapTo true 0 ++ ['.', '.', '.', '\n'])).1
    (hreads.trans (reads_documentEnd hline))
  have hfinishes : Finishes (standing (header ++ (S ++ gapTo true 0) ++ ['.', '.', '.', '\n']) []
      (.blockMapping :: us ++ [.blockEnd, .documentEnd]) (-1) [] true [])
      (.blockMapping :: us ++ [.blockEnd, .documentEnd] ++ [.streamEnd]) := finishes_outside
  have htokens := hfinishes.ofText hheader (by simp [gapTo]) hcomes
  simpa [gapTo] using htokens

end Yaml

end StepLoom
