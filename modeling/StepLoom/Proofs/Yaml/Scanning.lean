import StepLoom.Proofs.Run
import StepLoom.Proofs.Yaml.PlainScalar
import StepLoom.Yaml.Token

/-!
# From token to token

The lexer reads one token after another, and before each it passes over the gap in front of it
(`prepare`). A lexer outside of all brackets is `standing` between two parts of the text. `Reads`
says that it comes from one such place to another, and `Comes` that it does so when the gap is still
to be passed over; both count the tokens on the way, of which there are no more than characters.
What the lexer would keep if it had to break off (`certain`) does not count.
-/

namespace StepLoom

namespace Yaml

open Cursor (between)

namespace Lexer

/-- What is done before a token. -/
def prepare : Step Unit := do
  modify settle
  modify fun l => toNextToken (l.cursor.room + 1) l
  forgetStale
  leaveBlocks (← get).cursor.column

/-- All tokens that are left, from the beginning of one on. -/
def resume : Nat → Step Unit
  | 0 => throw .yaml
  | fuel + 1 => do
    match (← get).cursor.rest with
    | [] => finish
    | ch :: _ =>
      token ch
      run fuel

theorem run_succ (fuel : Nat) : run (fuel + 1) = prepare >>= fun _ => resume (fuel + 1) := by
  rw [run, prepare]
  simp only [bind_assoc]
  rfl

/-- A lexer between two parts of a text, with the tokens found so far, outside of brackets. -/
def standing (before rest : List Char) (ts : List Token) (indent : Int) (outer : List Int)
    (keyAllowed : Bool) (candidates : List (Nat × Candidate)) (certain : Nat) : Lexer where
  cursor := between before rest
  tokens := ts.toArray
  indent := indent
  outer := outer
  keyAllowed := keyAllowed
  candidates := candidates
  certain := certain

/-- The lexer when the collections indented deeper than a column have been ended. -/
def leave (column : Nat) (l : Nat → Lexer) (certain : Nat) : Lexer :=
  closeBlocks column (l certain).outer (l certain)

/-- From the beginning of one token to the beginning of another. -/
def Reads (l m : Nat → Lexer) : Prop :=
  ∃ steps, (∀ c c', (l c).cursor.index + steps ≤ (m c').cursor.index) ∧
    ∀ fuel c, ∃ c', exec (resume (fuel + 1 + steps)) (l c) = exec (resume (fuel + 1)) (m c')

/-- From the end of one token to the beginning of another. -/
def Comes (l m : Nat → Lexer) : Prop :=
  ∃ steps, (∀ c c', (l c).cursor.index + steps ≤ (m c').cursor.index) ∧
    ∀ fuel c, ∃ c', exec (run (fuel + 1 + steps)) (l c) = exec (resume (fuel + 1)) (m c')

variable {l m o : Nat → Lexer}

/-- What comes to the beginning of a token goes on to the beginning of another. -/
theorem Reads.behind {f : Nat → Step Unit}
    (h : ∃ steps, (∀ c c', (l c).cursor.index + steps ≤ (m c').cursor.index) ∧
      ∀ fuel c, ∃ c', exec (f (fuel + 1 + steps)) (l c) = exec (resume (fuel + 1)) (m c'))
    (h' : Reads m o) : ∃ steps, (∀ c c', (l c).cursor.index + steps ≤ (o c').cursor.index) ∧
      ∀ fuel c, ∃ c', exec (f (fuel + 1 + steps)) (l c) = exec (resume (fuel + 1)) (o c') := by
  obtain ⟨s, hindex, hsteps⟩ := h
  obtain ⟨s', hindex', hsteps'⟩ := h'
  refine ⟨s' + s, fun c c' => ?_, fun fuel c => ?_⟩
  · have h1 := hindex c c
    have h2 := hindex' c c'
    omega
  · obtain ⟨d, hd⟩ := hsteps (fuel + s') c
    obtain ⟨e, he⟩ := hsteps' fuel d
    refine ⟨e, ?_⟩
    rw [← he, show fuel + 1 + s' = fuel + s' + 1 by omega, ← hd]
    congr 2
    omega

theorem Reads.trans (h : Reads l m) (h' : Reads m o) : Reads l o := Reads.behind h h'

theorem Comes.trans (h : Comes l m) (h' : Reads m o) : Comes l o := Reads.behind h h'

/-- The gap is passed over. -/
theorem comes_of_prepare (hindex : ∀ c c', (l c).cursor.index ≤ (m c').cursor.index)
    (h : ∀ c, ∃ c', exec prepare (l c) = (.ok (), m c')) : Comes l m := by
  refine ⟨0, hindex, fun fuel c => ?_⟩
  obtain ⟨c', hc'⟩ := h c
  exact ⟨c', by rw [Nat.add_zero, run_succ, exec_bind_ok hc']⟩

/-- One token, and the gap behind it. -/
theorem reads_of_token {ch : Char} {more : List Char}
    (htoken : ∀ c, exec (token ch) (l c) = (.ok (), m c))
    (hrest : ∀ c, (l c).cursor.rest = ch :: more)
    (hindex : ∀ c c', (l c).cursor.index + 1 ≤ (m c').cursor.index) (h : Comes m o) :
    Reads l o := by
  obtain ⟨s, hindex', hsteps⟩ := h
  refine ⟨s + 1, fun c c' => ?_, fun fuel c => ?_⟩
  · have h1 := hindex c c
    have h2 := hindex' c c'
    omega
  · obtain ⟨e, he⟩ := hsteps fuel c
    refine ⟨e, ?_⟩
    rw [← he, ← Nat.add_assoc, resume, exec_bind_ok exec_get, hrest c]
    exact exec_bind_ok (htoken c)

/-! ## Gaps -/

/-- A gap between two tokens: blanks, perhaps with a line end in front of them. -/
inductive Gap : (crossed : Bool) → List Char → Prop
  | blanks (n : Nat) : Gap false (List.replicate n ' ')
  | line (n : Nat) : Gap true ('\n' :: List.replicate n ' ')

variable {before rest gap : List Char} {ts : List Token} {indent : Int} {outer : List Int}
  {keyAllowed crossed : Bool} {candidates : List (Nat × Candidate)} {c k : Nat}

@[simp] theorem standing_cursor :
    (standing before rest ts indent outer keyAllowed candidates c).cursor = between before rest :=
    rfl

@[simp] theorem standing_outer :
    (standing before rest ts indent outer keyAllowed candidates c).outer = outer := rfl

@[simp] theorem standing_indent :
    (standing before rest ts indent outer keyAllowed candidates c).indent = indent := rfl

@[simp] theorem standing_inFlow :
    (standing before rest ts indent outer keyAllowed candidates c).inFlow = false := rfl

@[simp] theorem standing_keyAllowed :
    (standing before rest ts indent outer keyAllowed candidates c).keyAllowed = keyAllowed := rfl

@[simp] theorem standing_flowDepth :
    (standing before rest ts indent outer keyAllowed candidates c).flowDepth = 0 := rfl

@[simp] theorem standing_candidates :
    (standing before rest ts indent outer keyAllowed candidates c).candidates = candidates := rfl

@[simp] theorem standing_tokens :
    (standing before rest ts indent outer keyAllowed candidates c).tokens = ts.toArray := rfl

theorem skip_gap (h : Opens rest) (n : Nat) :
    (between before (List.replicate n ' ' ++ rest)).skipSpaces.skipComment =
      between (before ++ List.replicate n ' ') rest := by
  have hblanks : ∀ ch ∈ List.replicate n ' ', isSpace ch := by
    intro ch hch
    obtain rfl := List.eq_of_mem_replicate hch
    rfl
  rw [Cursor.skipSpaces, Cursor.skipWhile_between hblanks h.not_isSpace, Cursor.skipComment,
    Cursor.has_comment_of_opens h, if_neg (by decide)]

theorem toNextToken_blanks {fuel : Nat} (h : Opens rest) (n : Nat) :
    toNextToken (fuel + 1)
        (standing before (List.replicate n ' ' ++ rest) ts indent outer keyAllowed candidates c) =
      standing (before ++ List.replicate n ' ') rest ts indent outer keyAllowed candidates c := by
  rw [toNextToken]
  simp only [standing_cursor, skip_gap h n]
  rw [if_neg]
  · rfl
  · cases rest with
    | nil => simp [Cursor.isAtEnd]
    | cons d more =>
      have hd : isBreak d = false := by simpa using h.not_isBreak
      simp [Cursor.isAtLineEnd, hd]

theorem toNextToken_gap {fuel : Nat} (hgap : Gap crossed gap) (h : Opens rest)
    (hfuel : gap.length < fuel) :
    toNextToken fuel (standing before (gap ++ rest) ts indent outer keyAllowed candidates c) =
      standing (before ++ gap) rest ts indent outer (keyAllowed || crossed) candidates c := by
  cases hgap with
  | blanks n =>
    obtain ⟨fuel, rfl⟩ : ∃ m, fuel = m + 1 := ⟨fuel - 1, by omega⟩
    rw [toNextToken_blanks h n, Bool.or_false]
  | line n =>
    obtain ⟨fuel, rfl⟩ : ∃ m, fuel = m + 2 := ⟨fuel - 2, by simp at hfuel; omega⟩
    have hskip : (between before ('\n' :: List.replicate n ' ' ++ rest)).skipSpaces.skipComment =
        between before ('\n' :: List.replicate n ' ' ++ rest) := by
      rw [Cursor.skipSpaces, Cursor.skipWhile_of_not (by rfl), Cursor.skipComment,
        if_neg (by simp [Cursor.has])]
    have hend : (between before ('\n' :: List.replicate n ' ' ++ rest)).isAtLineEnd = true := by
      simp [Cursor.isAtLineEnd, isBreak]
    rw [toNextToken]
    simp only [standing_cursor, hskip, hend, standing_inFlow, standing_keyAllowed]
    rw [if_pos (by simp [Cursor.isAtEnd]), List.cons_append, Cursor.step_between]
    change toNextToken (fuel + 1) (standing (before ++ ['\n']) (List.replicate n ' ' ++ rest) ts
      indent
      outer (keyAllowed || true) candidates c) = _
    rw [toNextToken_blanks h n, List.append_assoc, List.singleton_append]

/-- Candidates that are still possible behind a part of the text. -/
def stillPossible (cursor : Cursor) (candidates : List (Nat × Candidate)) :
    List (Nat × Candidate) :=
  candidates.filter fun k => !isStale cursor k.2

theorem exec_forgetStale {l : Lexer}
    (h : ∀ k ∈ l.candidates, isStale l.cursor k.2 → k.2.required = false) :
    exec forgetStale l =
      (.ok (), { l with candidates := stillPossible l.cursor l.candidates }) := by
  rw [forgetStale, exec_bind_ok exec_get, if_neg]
  · rfl
  · rw [Bool.not_eq_true, List.any_eq_false]
    intro k hk
    obtain ⟨hmem, hstale⟩ := List.mem_filter.mp hk
    simp [h k hmem hstale]

theorem forgetStale_standing
    (h : ∀ k ∈ candidates, isStale (between before rest) k.2 → k.2.required = false) :
    exec forgetStale (standing before rest ts indent outer keyAllowed candidates c) =
      (.ok (), standing before rest ts indent outer keyAllowed
        (stillPossible (between before rest) candidates) c) :=
  exec_forgetStale h

/-- **The gap in front of a token is passed over**, and collections that the token's column lies
outside of are ended. -/
theorem prepare_standing (hgap : Gap crossed gap) (h : Opens rest)
    (hstale : ∀ k ∈ candidates, isStale (between (before ++ gap) rest) k.2 → k.2.required = false) :
    ∃ c', exec prepare (standing before (gap ++ rest) ts indent outer keyAllowed candidates c) =
      (.ok (), leave (columnOf (before ++ gap)) (standing (before ++ gap) rest ts indent outer
        (keyAllowed || crossed) (stillPossible (between (before ++ gap) rest) candidates)) c') := by
  obtain ⟨c', hc'⟩ : ∃ c',
      settle (standing before (gap ++ rest) ts indent outer keyAllowed candidates c) =
        standing before (gap ++ rest) ts indent outer keyAllowed candidates c' := ⟨_, rfl⟩
  have hroom : gap.length < (between before (gap ++ rest)).room + 1 := by
    rw [Cursor.between_room, List.length_append]
    omega
  refine ⟨c', ?_⟩
  rw [prepare, exec_bind_ok (exec_modify _), hc', exec_bind_ok (exec_modify _), standing_cursor,
    toNextToken_gap hgap h hroom, exec_bind_ok (forgetStale_standing hstale), exec_bind_ok exec_get]
  rfl

/-! ## Ending collections -/

theorem leave_of_le (h : indent ≤ k) :
    leave k (standing before rest ts indent outer keyAllowed candidates) =
      standing before rest ts indent outer keyAllowed candidates := by
  funext c
  rw [leave]
  cases outer with
  | nil => rfl
  | cons up outer =>
    rw [standing_outer, closeBlocks, if_neg]
    rw [standing_indent]
    omega

theorem leave_of_lt {up : Int} (h : (k : Int) < indent) :
    leave k (standing before rest ts indent (up :: outer) keyAllowed candidates) =
      leave k (standing before rest (ts ++ [.blockEnd]) up outer keyAllowed candidates) := by
  funext c
  rw [leave, standing_outer, closeBlocks, if_pos (by simpa using h), leave, standing_outer]
  congr 1
  simp [standing]

theorem closeBlocks_cursor (column : Int) (outer : List Int) (l : Lexer) :
    (closeBlocks column outer l).cursor = l.cursor := by
  induction outer generalizing l with
  | nil => rfl
  | cons up outer ih =>
    rw [closeBlocks]
    split_ifs
    · rw [ih]
    · rfl

@[simp] theorem leave_cursor : (leave k l c).cursor = (l c).cursor := closeBlocks_cursor _ _ _

/-- **Over a gap**, out of the collections that end with it. -/
theorem comes_gap (hgap : Gap crossed gap) (h : Opens rest)
    (hstale : ∀ k ∈ candidates, isStale (between (before ++ gap) rest) k.2 → k.2.required = false) :
    Comes (standing before (gap ++ rest) ts indent outer keyAllowed candidates)
      (leave (columnOf (before ++ gap)) (standing (before ++ gap) rest ts indent outer
        (keyAllowed || crossed) (stillPossible (between (before ++ gap) rest) candidates))) := by
  apply comes_of_prepare
  · intro c c'
    simp
  · intro c
    exact prepare_standing hgap h hstale

end Lexer

end Yaml

end StepLoom
