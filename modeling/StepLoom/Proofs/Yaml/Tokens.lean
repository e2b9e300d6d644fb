import StepLoom.Proofs.Yaml.BlockScalar
import StepLoom.Proofs.Yaml.QuotedScalar
import StepLoom.Proofs.Yaml.Scanning

/-!
# Single tokens

What each kind of token does to a lexer that stands in front of it, outside of brackets.
-/

namespace StepLoom

namespace Yaml

open Cursor (between)

namespace Lexer

variable {before rest more : List Char} {ts : List Token} {indent : Int} {outer : List Int}
  {keyAllowed : Bool} {candidates : List (Nat × Candidate)} {c i : Nat}

/-! ## Parts of tokens -/

/-- The candidate that a node is which begins here. -/
def candidateAt (before : List Char) (ts : List Token) (indent : Int) : Candidate where
  position := ts.length
  required := decide (indent = columnOf before)
  index := before.length
  line := lineOf before
  column := columnOf before

/-- The candidates when a node begins here. -/
def candidatesAt (keyAllowed : Bool) (before : List Char) (ts : List Token) (indent : Int) :
    List (Nat × Candidate) :=
  if keyAllowed then [(0, candidateAt before ts indent)] else []

theorem exec_forget : exec forget (standing before rest ts indent outer keyAllowed [] c) =
    (.ok (), standing before rest ts indent outer keyAllowed [] c) := rfl

theorem exec_remember : exec remember (standing before rest ts indent outer keyAllowed [] c) =
    (.ok (), standing before rest ts indent outer keyAllowed
      (candidatesAt keyAllowed before ts indent) c) := by
  rw [remember, exec_bind_ok exec_get]
  cases keyAllowed with
  | false => rfl
  | true =>
    rw [standing_keyAllowed, if_pos rfl, exec_bind_ok exec_forget, exec_modify]
    rfl

theorem exec_allowKey (b : Bool) :
    exec (allowKey b) (standing before rest ts indent outer keyAllowed candidates c) =
      (.ok (), standing before rest ts indent outer b candidates c) := rfl

theorem exec_emit (t : Token) :
    exec (emit t) (standing before rest ts indent outer keyAllowed candidates c) =
      (.ok (), standing before rest (ts ++ [t]) indent outer keyAllowed candidates c) := by
  rw [emit, exec_modify]
  simp [standing]

theorem exec_moveTo (before' rest' : List Char) :
    exec (moveTo (between before' rest'))
        (standing before rest ts indent outer keyAllowed candidates c) =
      (.ok (), standing before' rest' ts indent outer keyAllowed candidates c) := rfl

theorem exec_mark {ch : Char} (t : Token) :
    exec (mark t 1) (standing before (ch :: more) ts indent outer keyAllowed candidates c) =
      (.ok (),
        standing (before ++ [ch]) more (ts ++ [t]) indent outer keyAllowed candidates c) := by
  rw [mark, exec_bind_ok (exec_emit t), exec_modify]
  simp [standing, Cursor.skip]

/-- A node whose text is read. -/
theorem exec_node {read : Cursor → Except Fault (Token × Cursor)}
    {t : Token} {before' rest' : List Char}
    (h : read (between before rest) = .ok (t, between before' rest')) :
    exec (node read) (standing before rest ts indent outer keyAllowed [] c) =
      (.ok (), standing before' rest' (ts ++ [t]) indent outer false
        (candidatesAt keyAllowed before ts indent) c) := by
  rw [node, exec_bind_ok exec_remember, exec_bind_ok (exec_allowKey false), exec_bind_ok exec_get,
    standing_cursor, h, exec_bind_ok (exec_liftM_ok _), exec_bind_ok (exec_emit t), exec_moveTo]

/-- The collection that a mark at a column begins. -/
def opening (indent : Int) (column : Nat) (collection : Token) : List Token :=
  if indent < column then [collection] else []

/-- The indentations around a collection that a mark at a column begins or continues. -/
def around (indent : Int) (column : Nat) (outer : List Int) : List Int :=
  if indent < column then indent :: outer else outer

theorem insertIdx_length (us : List Token) (t : Token) :
    (ts ++ us).insertIdx ts.length t = ts ++ t :: us := by
  induction ts with
  | nil => rfl
  | cons d more ih => rw [List.cons_append, List.length_cons, List.insertIdx_succ_cons, ih]; rfl

/-! ## Indicators -/

theorem exec_enterBlock (h : indent ≤ i) (t : Token) :
    exec (enterBlock i t none) (standing before rest ts indent outer keyAllowed candidates c) =
      (.ok (), standing before rest (ts ++ opening indent i t) i (around indent i outer) keyAllowed
        candidates c) := by
  rw [enterBlock, exec_modify, opening, around]
  by_cases hlt : indent < i
  · simp [standing, hlt]
  · obtain rfl : indent = i := by omega
    simp [standing]

theorem exec_enterBlock_at (h : indent ≤ i) (t : Token) (us : List Token) :
    exec (enterBlock i t (some ts.length))
        (standing before rest (ts ++ us) indent outer keyAllowed candidates c) =
      (.ok (), standing before rest (ts ++ (opening indent i t ++ us)) i (around indent i outer)
        keyAllowed candidates c) := by
  rw [enterBlock, exec_modify, opening, around]
  by_cases hlt : indent < i
  · simp [standing, hlt, insertAt, insertIdx_length]
  · obtain rfl : indent = i := by omega
    simp [standing]

/-- The mark of an entry, or of a key that has a line of its own. -/
theorem exec_blockMark {ch : Char} {t collection : Token} {after : Bool}
    (h : indent ≤ columnOf before) :
    exec (blockMark t collection after) (standing before (ch :: more) ts indent outer true [] c) =
      (.ok (), standing (before ++ [ch]) more
        (ts ++ opening indent (columnOf before) collection ++ [t]) (columnOf before)
        (around indent (columnOf before) outer) after [] c) := by
  rw [blockMark, exec_bind_ok exec_get]
  simp only [standing_inFlow, standing_keyAllowed, standing_cursor, Cursor.between_column,
    Bool.not_false, Bool.not_true, if_true, Bool.false_eq_true, if_false]
  rw [exec_bind_ok (exec_enterBlock h collection), exec_bind_ok (exec_allowKey after),
    exec_bind_ok exec_forget, exec_mark]

/-- The colon behind a key. -/
theorem exec_valueMark_key {us : List Token} {k : Candidate} (hposition : k.position = ts.length)
    (h : indent ≤ k.column) :
    exec valueMark (standing before (':' :: more) (ts ++ us) indent outer keyAllowed [(0, k)] c) =
      (.ok (), standing (before ++ [':']) more
        (ts ++ (opening indent k.column .blockMapping ++ .key :: us) ++ [.value]) k.column
        (around indent k.column outer) false [] c) := by
  have hinsert : insertAt k.position .key
      (standing before (':' :: more) (ts ++ us) indent outer keyAllowed [] c) =
      standing before (':' :: more) (ts ++ .key :: us) indent outer keyAllowed [] c := by
    simp [standing, insertAt, hposition, insertIdx_length]
  rw [valueMark, exec_bind_ok exec_get]
  simp only [standing_candidates, standing_flowDepth, List.find?_cons, beq_self_eq_true]
  rw [exec_bind_ok (exec_modify _)]
  -- The key is found, and with it the only candidate at this depth goes.
  change exec _ (insertAt k.position .key
    (standing before (':' :: more) (ts ++ us) indent outer keyAllowed [] c)) = _
  rw [hinsert]
  simp only [standing_inFlow, Bool.not_false, if_true, hposition]
  rw [exec_bind_ok (exec_enterBlock_at h .blockMapping _), exec_bind_ok (exec_allowKey false),
    exec_mark]

/-- The colon in a line of its own. -/
theorem exec_valueMark_line (h : indent = columnOf before) :
    exec valueMark (standing before (':' :: more) ts indent outer true [] c) =
      (.ok (), standing (before ++ [':']) more (ts ++ [.value]) indent outer true [] c) := by
  have hopening : opening indent (columnOf before) .blockMapping = [] := by simp [opening, h]
  have haround : around indent (columnOf before) outer = outer := by simp [around, h]
  rw [valueMark, exec_bind_ok exec_get]
  simp only [standing_candidates, List.find?_nil, standing_inFlow, standing_keyAllowed,
    standing_cursor,
    Cursor.between_column, Bool.not_false, Bool.not_true, if_true, Bool.false_eq_true, if_false]
  rw [exec_bind_ok (exec_enterBlock (Int.le_of_eq h) .blockMapping), hopening, haround,
    List.append_nil, ← h, exec_bind_ok (exec_allowKey true), exec_bind_ok exec_forget, exec_mark]

theorem token_single (h : rest = '\'' :: more) :
    exec (token '\'') (standing before rest ts indent outer keyAllowed candidates c) =
      exec (node (readQuoted false))
      (standing before rest ts indent outer keyAllowed candidates c) := by
  rw [token, exec_bind_ok exec_get]
  simp [Cursor.isAtMark, h]

theorem token_double (h : rest = '"' :: more) :
    exec (token '"') (standing before rest ts indent outer keyAllowed candidates c) =
      exec (node (readQuoted true))
      (standing before rest ts indent outer keyAllowed candidates c) := by
  rw [token, exec_bind_ok exec_get]
  simp [Cursor.isAtMark, h]

theorem token_literal (h : rest = '|' :: more) :
    exec (token '|') (standing before rest ts indent outer keyAllowed candidates c) =
      exec (block false) (standing before rest ts indent outer keyAllowed candidates c) := by
  rw [token, exec_bind_ok exec_get]
  simp [Cursor.isAtMark, h]

theorem token_entry {d : Char} (h : rest = '-' :: d :: more) (hd : isBlankOrBreak d) :
    exec (token '-') (standing before rest ts indent outer keyAllowed candidates c) =
      exec (blockMark .entry .blockSequence true)
        (standing before rest ts indent outer keyAllowed candidates c) := by
  have hdash : '-' ≠ d := by
    rintro rfl
    exact absurd hd (by decide)
  rw [token, exec_bind_ok exec_get]
  simp [Cursor.isAtMark, h, Cursor.endsWordAt, hd, hdash]

theorem token_question {d : Char} (h : rest = '?' :: d :: more) (hd : isBlankOrBreak d) :
    exec (token '?') (standing before rest ts indent outer keyAllowed candidates c) =
      exec (blockMark .key .blockMapping true)
        (standing before rest ts indent outer keyAllowed candidates c) := by
  rw [token, exec_bind_ok exec_get]
  simp [Cursor.isAtMark, h, Cursor.endsWordAt, hd]

theorem token_colon {d : Char} (h : rest = ':' :: d :: more) (hd : isBlankOrBreak d) :
    exec (token ':') (standing before rest ts indent outer keyAllowed candidates c) =
      exec valueMark (standing before rest ts indent outer keyAllowed candidates c) := by
  rw [token, exec_bind_ok exec_get]
  simp [Cursor.isAtMark, h, Cursor.endsWordAt, hd]

/-! ## Scalars -/

theorem exec_quoted {isDouble : Bool} {q : Char} {cs : List Char} {before' rest' : List Char}
    (h : Cursor.quoted isDouble (between before (q :: more)).room (between (before ++ [q]) more) =
      .ok (cs, between before' rest')) :
    exec (node (readQuoted isDouble))
        (standing before (q :: more) ts indent outer keyAllowed [] c) =
      (.ok (), standing before' rest' (ts ++ [.scalar false (String.ofList cs)]) indent outer false
        (candidatesAt keyAllowed before ts indent) c) := by
  apply exec_node
  rw [readQuoted, Cursor.step_between, h]
  rfl

theorem exec_literal {cs : List Char} {before' rest' : List Char}
    (h : Cursor.block false indent (between (before ++ ['|']) more) =
      .ok (cs, between before' rest')) :
    exec (block false) (standing before ('|' :: more) ts indent outer keyAllowed [] c) =
      (.ok (), standing before' rest' (ts ++ [.scalar false (String.ofList cs)]) indent outer
        true [] c) := by
  rw [block, exec_bind_ok (exec_allowKey true), exec_bind_ok exec_forget, exec_bind_ok exec_get,
    standing_cursor, Cursor.step_between, standing_indent, h, exec_bind_ok (exec_liftM_ok _),
    exec_bind_ok (exec_emit _), exec_moveTo]

theorem exec_plain {cs : List Char} {before' rest' : List Char} {crossed : Bool}
    (h : Cursor.plain false (indent + 1) (between before rest).room (between before rest) =
      ((cs, crossed), between before' rest')) :
    exec plain (standing before rest ts indent outer keyAllowed [] c) =
      (.ok (), standing before' rest' (ts ++ [.scalar true (String.ofList cs)]) indent outer crossed
        (candidatesAt keyAllowed before ts indent) c) := by
  rw [plain, exec_bind_ok exec_remember, exec_bind_ok exec_get, standing_cursor, standing_indent,
    standing_inFlow, h]
  rw [exec_bind_ok (exec_allowKey crossed), exec_bind_ok (exec_emit _), exec_moveTo]

/-- A plain scalar may start with the character, if something follows it in its word. -/
def StartsPlain (ch : Char) (word : List Char) : Prop :=
  isBlankOrBreak ch = false ∧ leadingIndicators.contains ch = false ∧
    ((ch = '?' ∨ ch = ':' ∨ ch = '-') → ∃ d, word.head? = some d ∧ isBlankOrBreak d = false)

theorem notPlain_split : ∀ ch ∈ notPlain,
    ch ∈ leadingIndicators ∨ ch = '?' ∨ ch = ':' ∨ ch = '-' := by
  simp [notPlain, leadingIndicators]

/-- Where no document mark starts, there is none of dashes and none of dots. -/
theorem not_isAtMark_of_startsMark (hmark : columnOf before = 0 → startsMark rest = false) :
    ¬(columnOf before = 0 ∧ (between before rest).isAtMark '-' = true) ∧
      ¬(columnOf before = 0 ∧ (between before rest).isAtMark '.' = true) := by
  have hno : columnOf before = 0 → (between before rest).isAtMark '-' = false ∧
      (between before rest).isAtMark '.' = false := fun hcolumn => by
    have h := hmark hcolumn
    rw [startsMark, Cursor.isAtDocumentMark, Bool.or_eq_false_iff] at h
    simpa [Cursor.isAtMark, Cursor.endsWordAt, Cursor.ofText] using h
  constructor
  · rintro ⟨hcolumn, hdashes⟩
    rw [(hno hcolumn).1] at hdashes
    cases hdashes
  · rintro ⟨hcolumn, hdots⟩
    rw [(hno hcolumn).2] at hdots
    cases hdots

theorem StartsPlain.ne {ch : Char} (h : StartsPlain ch more) : ∀ d ∈ leadingIndicators, ch ≠ d := by
  rintro d hd rfl
  obtain ⟨-, hindicator, -⟩ := h
  rw [List.contains_iff_mem.mpr hd] at hindicator
  cases hindicator

/-- The word goes on behind a character that is an indicator when it stands alone. -/
theorem StartsPlain.goes_on {ch : Char} (h : StartsPlain ch more)
    (hch : ch = '?' ∨ ch = ':' ∨ ch = '-') :
    (between before (ch :: more)).endsWordAt 1 = false := by
  obtain ⟨d, hd, hsolid⟩ := h.2.2 hch
  obtain ⟨v, rfl⟩ := List.head?_eq_some_iff.mp hd
  simp [Cursor.endsWordAt, hsolid]

theorem StartsPlain.startsPlain {ch : Char} (h : StartsPlain ch more) :
    startsPlain (standing before (ch :: more) ts indent outer keyAllowed candidates c) ch =
      true := by
  by_cases hch : ch = '?' ∨ ch = ':' ∨ ch = '-'
  · rw [Lexer.startsPlain, standing_cursor, h.goes_on hch, standing_inFlow, Bool.or_eq_true]
    right
    obtain rfl | rfl | rfl := hch <;> rfl
  · have hnot : notPlain.contains ch = false := by
      by_contra hmem
      rw [Bool.not_eq_false, List.contains_iff_mem] at hmem
      obtain hmem | hmem := notPlain_split ch hmem
      · exact h.ne ch hmem rfl
      · exact hch hmem
    rw [Lexer.startsPlain, h.1, hnot]
    rfl

theorem token_plain {ch : Char} (h : rest = ch :: more) (hstart : StartsPlain ch more)
    (hmark : columnOf before = 0 → startsMark rest = false) :
    exec (token ch) (standing before rest ts indent outer keyAllowed candidates c) =
      exec plain (standing before rest ts indent outer keyAllowed candidates c) := by
  obtain ⟨hdashes, hdots⟩ := not_isAtMark_of_startsMark hmark
  subst h
  have hne := hstart.ne
  have hentry : ¬(ch = '-' ∧ (between before (ch :: more)).endsWordAt 1 = true) := by
    rintro ⟨hch, hend⟩
    simp [hstart.goes_on (Or.inr (Or.inr hch))] at hend
  have hquestion : ¬(ch = '?' ∧ (between before (ch :: more)).endsWordAt 1 = true) := by
    rintro ⟨hch, hend⟩
    simp [hstart.goes_on (Or.inl hch)] at hend
  have hcolon : ¬(ch = ':' ∧ (between before (ch :: more)).endsWordAt 1 = true) := by
    rintro ⟨hch, hend⟩
    simp [hstart.goes_on (Or.inr (Or.inl hch))] at hend
  rw [token, exec_bind_ok exec_get]
  simp only [standing_cursor, standing_inFlow, Cursor.between_column, Bool.false_eq_true, false_or,
    hne '%' (by decide), hdashes, hdots, hne '[' (by decide), hne '\x7b' (by decide),
      hne ']' (by decide),
    hne '\x7d' (by decide), hne ',' (by decide), hentry, hquestion, hcolon, hne '*' (by decide),
    hne '&' (by decide), hne '!' (by decide), hne '|' (by decide), hne '>' (by decide),
    hne '\'' (by decide), hne '"' (by decide), hstart.startsPlain, false_and, if_false, if_true]

end Lexer

end Yaml

end StepLoom
