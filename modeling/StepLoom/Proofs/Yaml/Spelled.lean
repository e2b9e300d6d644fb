import StepLoom.Proofs.Yaml.Tokens

/-!
# Spelled scalars are read back

`Spelled` joins the spellings of a text in all styles. A scalar that is spelled in one of them is
read back as one token, where it stands as a value (`Spelled.reads`) and where it stands as a key in
front of its colon (`Spelled.reads_key`).
-/

namespace StepLoom

namespace Yaml

open Cursor (between)

/-- What a plain text must not start with. -/
structure PlainStart (cs : List Char) : Prop where
  no_indicator : startsAsIndicator cs = false
  no_dashes : ['-', '-', '-'].isPrefixOf cs = false
  no_dots : ['.', '.', '.'].isPrefixOf cs = false

/-- The spellings of a text whose lines are indented by `level`. A plain one is read by what it
looks like. After a literal block a line has ended. -/
inductive Spelled (level : Nat) (cs : List Char) : (isPlain ended : Bool) → List Char → Prop
  | plain {t : List Char} : PlainStart cs → Plainly level cs t → Spelled level cs true false t
  | single {t : List Char} :
      Singly level cs t → Spelled level cs false false ('\'' :: (t ++ ['\'']))
  | double {t : List Char} : Doubly level cs t → Spelled level cs false false ('"' :: (t ++ ['"']))
  | literal {t : List Char} : BlockText level cs t →
      Spelled level cs false true ('|' :: ((blockHints cs).toList ++ '\n' :: t))

/-- What stands between a value and what follows it at a column. -/
def gapTo (ended : Bool) (column : Nat) : List Char :=
  (if ended then [] else ['\n']) ++ List.replicate column ' '

/-- The text may follow a value at the column. -/
def Follows (ended : Bool) (column : Nat) (rest : List Char) : Prop :=
  Opens rest ∧ (column = 0 → ended = false → startsMark rest = false)

variable {cs t S before rest more : List Char} {ts : List Token} {outer : List Int}
  {level n k c : Nat}
  {isPlain ended keyAllowed : Bool} {us : List Token}

/-! ## The first word of a plain text -/

/-- A plain text and its spelling start with the same word. -/
theorem Plainly.first (h : Plainly level cs t) :
    ∃ ch w v u, cs = ch :: (w ++ v) ∧ t = ch :: (w ++ u) ∧
      (∀ d ∈ ch :: w, isBlankOrBreak d = false) ∧ (∀ d ∈ v.head?, isBlankOrBreak d) ∧
      (∀ d ∈ u.head?, isBlankOrBreak d) := by
  cases h with
  | word hw =>
    obtain ⟨ch, w, rfl⟩ := List.exists_cons_of_ne_nil hw.ne_nil
    exact ⟨ch, w, [], [], by simp, by simp, hw.solid, by simp, by simp⟩
  | @spaced w v u n hw _ =>
    obtain ⟨ch, w, rfl⟩ := List.exists_cons_of_ne_nil hw.ne_nil
    refine ⟨ch, w, List.replicate (n + 1) ' ' ++ v, List.replicate (n + 1) ' ' ++
      u, by simp, by simp,
      hw.solid, ?_, ?_⟩ <;> simp [List.replicate_succ, isBlankOrBreak]
  | @folded w v u hw _ =>
    obtain ⟨ch, w, rfl⟩ := List.exists_cons_of_ne_nil hw.ne_nil
    refine ⟨ch, w, ' ' :: v, '\n' :: List.replicate level ' ' ++ u, by simp, by simp, hw.solid, ?_,
      ?_⟩ <;>
      simp [isBlankOrBreak, isBreak]

theorem PlainStart.startsPlain (h : PlainStart cs) (ht : Plainly level cs t) :
    ∃ ch u, t = ch :: u ∧ ∀ rest, Lexer.StartsPlain ch (u ++ rest) := by
  obtain ⟨ch, w, v, u, rfl, rfl, hw, hv, -⟩ := ht.first
  have hstart := h.no_indicator
  simp only [startsAsIndicator, Bool.or_eq_false_iff, Bool.and_eq_false_iff] at hstart
  refine ⟨ch, w ++ u, rfl, fun rest => ⟨hw ch (by simp), hstart.1, fun hch => ?_⟩⟩
  obtain hno | halone := hstart.2
  · obtain rfl | rfl | rfl := hch <;> simp at hno
  · cases w with
    | nil =>
      cases v with
      | nil => simp at halone
      | cons d v => simp [hv d (by simp)] at halone
    | cons d w => exact ⟨d, by simp, hw d (by simp)⟩

/-- No mark of a document is made of a plain text and what follows it. -/
theorem PlainStart.startsMark (h : PlainStart cs) (ht : Plainly level cs t)
    (hrest : ∀ d ∈ rest.head?, d ≠ '-' ∧ d ≠ '.') : startsMark (t ++ rest) = false := by
  obtain ⟨ch, w, v, u, rfl, rfl, hw, hv, hu⟩ := ht.first
  have hmark : ∀ m, (m = '-' ∨ m = '.') → [m, m, m].isPrefixOf (ch :: (w ++ v)) = false →
      [m, m, m].isPrefixOf (ch :: (w ++ u) ++ rest) = false := by
    intro m hm hno
    have hblank : isBlankOrBreak m = false := by obtain rfl | rfl := hm <;> decide
    have hnext : ∀ d ∈ (u ++ rest).head?, d ≠ m := by
      cases u with
      | nil =>
        intro d hd
        obtain rfl | rfl := hm
        · exact (hrest d hd).1
        · exact (hrest d hd).2
      | cons e u =>
        intro d hd
        obtain rfl : e = d := by simpa using hd
        rintro rfl
        simp [hu e (by simp)] at hblank
    have hhead : ∀ more, (u ++ rest) ≠ m :: more := by
      intro more heq
      exact hnext m (by simp [heq]) rfl
    rw [Bool.eq_false_iff] at hno ⊢
    intro hyes
    obtain ⟨more, hmore⟩ := List.isPrefixOf_iff_prefix.mp hyes
    apply hno
    match w with
    | [] => exact absurd (List.cons.inj hmore).2.symm (by simpa using hhead (m :: more))
    | [d] =>
      have htail := (List.cons.inj (List.cons.inj hmore).2).2
      exact absurd htail.symm (by simpa using hhead more)
    | d :: e :: w =>
      simp only [List.cons_append, List.nil_append, List.cons.injEq] at hmore
      obtain ⟨rfl, rfl, rfl, -⟩ := hmore
      simp
  have hdashes := hmark '-' (Or.inl rfl) h.no_dashes
  have hdots := hmark '.' (Or.inr rfl) h.no_dots
  simp only [Yaml.startsMark, Cursor.isAtDocumentMark, Cursor.isAtMark, Cursor.ofText, hdashes,
    hdots, Bool.false_and, Bool.or_false]

theorem Spelled.opens (h : Spelled level cs isPlain ended S) (rest : List Char) :
    Opens (S ++ rest) := by
  cases h with
  | plain _ ht => exact (Cursor.opens_of_plainly rest ht).1
  | single _ => exact opens_cons (by decide) (by decide) _
  | double _ => exact opens_cons (by decide) (by decide) _
  | literal _ => exact opens_cons (by decide) (by decide) _

/-- What starts with a spelled key is no mark of a document. -/
theorem Spelled.startsMark (h : Spelled level cs isPlain false S) :
    startsMark (S ++ ':' :: rest) = false := by
  cases h with
  | plain hstart ht => exact hstart.startsMark ht (by simp)
  | single _ => rfl
  | double _ => rfl

theorem Spelled.ends (h : Spelled level cs isPlain true S) : EndsLine S := by
  cases h with
  | literal ht => simpa using ht.ends.append ('|' :: ((blockHints cs).toList ++ ['\n']))

/-! ## Values -/

namespace Lexer

theorem stillPossible_line {m : Int} (hbreak : ∃ b ∈ more, isBreak b) :
    stillPossible (between (before ++ more) rest) (candidatesAt keyAllowed before ts m) = [] := by
  have hpos : 0 < more.countP isBreak := List.countP_pos_iff.mpr hbreak
  have hstale : isStale (between (before ++ more) rest) (candidateAt before ts m) = true := by
    simp only [isStale, candidateAt, Cursor.between_line, lineOf_append, Bool.or_eq_true,
      bne_iff_ne]
    left
    omega
  cases keyAllowed <;> simp [stillPossible, candidatesAt, hstale]

/-! ## Tokens of spelled scalars -/

section Scalars

variable {indent : Int}

theorem exec_single (h : Singly level cs t) (hlevel : 0 < level) (hrest : rest.head? ≠ some '\'') :
    exec (token '\'')
        (standing before ('\'' :: (t ++ ['\'']) ++ rest) ts indent outer keyAllowed [] c) =
      (.ok (), standing (before ++ '\'' :: (t ++ ['\''])) rest
        (ts ++ [.scalar false (String.ofList cs)]) indent outer false
        (candidatesAt keyAllowed before ts indent) c) := by
  have hroom : t.length < (between before ('\'' :: (t ++ ['\'']) ++ rest)).room := by
    rw [Cursor.between_room, List.cons_append, List.length_cons, List.length_append,
      List.length_append]
    omega
  have hread := Cursor.single_reads (before ++ ['\'']) h hlevel hrest hroom
  rw [List.cons_append] at hread ⊢
  rw [token_single rfl]
  apply exec_quoted
  simpa using hread

theorem exec_double (h : Doubly level cs t) (hlevel : 0 < level) :
    exec (token '"')
        (standing before ('"' :: (t ++ ['"']) ++ rest) ts indent outer keyAllowed [] c) =
      (.ok (), standing (before ++ '"' :: (t ++ ['"'])) rest
        (ts ++ [.scalar false (String.ofList cs)]) indent outer false
        (candidatesAt keyAllowed before ts indent) c) := by
  have hroom : t.length < (between before ('"' :: (t ++ ['"']) ++ rest)).room := by
    rw [Cursor.between_room, List.cons_append, List.length_cons, List.length_append,
      List.length_append]
    omega
  have hread := Cursor.double_reads (before ++ ['"']) rest h hlevel hroom
  rw [List.cons_append] at hread ⊢
  rw [token_double rfl]
  apply exec_quoted
  simpa using hread

theorem exec_block (h : BlockText (n + 2) cs t) (hrest : Opens rest) (hk : k ≤ n) :
    exec (token '|') (standing before ('|' :: ((blockHints cs).toList ++ '\n' :: t) ++
        (List.replicate k ' ' ++ rest)) ts n outer keyAllowed [] c) =
      (.ok (), standing (before ++
      ('|' :: ((blockHints cs).toList ++ '\n' :: t) ++ List.replicate k ' ')) rest
        (ts ++ [.scalar false (String.ofList cs)]) n outer true [] c) := by
  have hread := Cursor.block_reads (before ++ ['|']) h hrest hk
  rw [List.cons_append]
  rw [token_literal rfl]
  apply exec_literal
  simpa using hread

theorem exec_plainly {tail gone left : List Char} {crossed : Bool} (before : List Char)
    (ts : List Token) (outer : List Int) (keyAllowed : Bool) (hstart : PlainStart cs)
    (h : Plainly level cs t) (hend : Cursor.PlainEnd (indent + 1) tail crossed gone left)
    (hlevel : 0 < level) (hindent : indent + 1 ≤ level) (hcolumn : indent ≤ columnOf before)
    (hmark : columnOf before = 0 → startsMark (t ++ tail) = false) :
    ∃ ch u, t = ch :: u ∧ ∀ c, exec (token ch)
    (standing before (t ++ tail) ts indent outer keyAllowed [] c) =
      (.ok (), standing (before ++ (t ++ gone)) left
        (ts ++ [.scalar true (String.ofList cs)]) indent outer crossed
        (candidatesAt keyAllowed before ts indent) c) := by
  obtain ⟨ch, u, hu, hch⟩ := hstart.startsPlain h
  refine ⟨ch, u, hu, fun c => ?_⟩
  have hroom : t.length ≤ (between before (t ++ tail)).room := by simp
  have hread := Cursor.plain_reads h hend hlevel hindent
    (by omega : indent + 1 ≤ columnOf before + 1) hroom
  rw [List.append_assoc] at hread
  rw [token_plain (by rw [hu]; rfl) (hch _) hmark]
  exact exec_plain hread

end Scalars

/-- A value has been read, and what follows it stands at a column. -/
theorem comes_value {gap : List Char} {crossed allowed : Bool} (hgap : Gap crossed gap)
    (h : Opens rest)
    (hcolumn : columnOf (before ++ (more ++ gap)) = k) (hbreak : ∃ b ∈ more ++ gap, isBreak b)
    (hallowed : (allowed || crossed) = true) (hcandidate : keyAllowed → columnOf before ≠ n) :
    Comes (standing (before ++ more) (gap ++ rest) us n outer allowed
        (candidatesAt keyAllowed before ts n))
      (leave k (standing (before ++ (more ++ gap)) rest us n outer true [])) := by
  have hrequired : ∀ q ∈ candidatesAt keyAllowed before ts n, q.2.required = false := by
    intro q hq
    cases keyAllowed with
    | false => cases hq
    | true =>
      obtain rfl := List.mem_singleton.mp hq
      have hne := hcandidate rfl
      simp only [candidateAt, decide_eq_false_iff_not]
      omega
  have hcomes : Comes (standing (before ++ more) (gap ++ rest) us n outer allowed
      (candidatesAt keyAllowed before ts n)) _ := comes_gap hgap h fun q hq _ => hrequired q hq
  rwa [List.append_assoc, stillPossible_line hbreak, hallowed, hcolumn] at hcomes

theorem gapTo_open (k : Nat) : gapTo false k = '\n' :: List.replicate k ' ' := rfl

theorem gapTo_ended (k : Nat) : gapTo true k = List.replicate k ' ' := rfl

theorem columnOf_gapTo : columnOf (before ++ (more ++ gapTo false k)) = k := by
  rw [← List.append_assoc, gapTo_open, columnOf_line (by decide) (flat_blanks k),
    List.length_replicate]

theorem comes_value_line (h : Opens rest) (hcandidate : keyAllowed → columnOf before ≠ n) :
    Comes (standing (before ++ more) (gapTo false k ++ rest) us n outer false
        (candidatesAt keyAllowed before ts n))
      (leave k (standing (before ++ (more ++ gapTo false k)) rest us n outer true [])) := by
  exact comes_value (Gap.line k) h columnOf_gapTo ⟨'\n', by simp [gapTo_open], by decide⟩ rfl
    hcandidate

theorem comes_value_blanks (keyAllowed : Bool) (ts : List Token) (h : Opens rest)
    (hcolumn : columnOf (before ++ more) = k)
    (hbreak : ∃ b ∈ more, isBreak b) (hcandidate : keyAllowed → columnOf before ≠ n) :
    Comes (standing (before ++ more) rest us n outer true (candidatesAt keyAllowed before ts n))
      (leave k (standing (before ++ more) rest us n outer true [])) := by
  have hcomes : Comes (standing (before ++ more) ([] ++ rest) us n outer true
      (candidatesAt keyAllowed before ts n)) _ :=
    comes_value (Gap.blanks 0) h (by simpa using hcolumn) (by simpa using hbreak) rfl hcandidate
  simpa using hcomes

/-- **A spelled value is read back** as one token. -/
theorem reads_spelled (before : List Char) (ts : List Token) (outer : List Int) (keyAllowed : Bool)
    (h : Spelled (n + 2) cs isPlain ended S) (hcolumn : n < columnOf before)
    (hk : k ≤ n) (hrest : Follows ended k rest) :
    Reads (standing before (S ++ (gapTo ended k ++ rest)) ts n outer keyAllowed [])
      (leave k (standing (before ++ (S ++ gapTo ended k)) rest
        (ts ++ [.scalar isPlain (String.ofList cs)]) n outer true [])) := by
  have hcandidate : keyAllowed → columnOf before ≠ n := fun _ => by omega
  cases h with
  | plain hstart ht =>
    have hend : Cursor.PlainEnd ((n : Int) + 1) (gapTo false k ++ rest) true (gapTo false k) rest :=
      Cursor.plainEnd_line hrest.1 (fun hk => hrest.2 hk rfl) (by omega)
    obtain ⟨ch, u, hu, htoken⟩ := exec_plainly before ts outer keyAllowed hstart ht hend (by omega)
      (by omega) (by omega) (fun _ => by omega)
    refine reads_of_token htoken (fun _ => by rw [hu]; rfl) (fun _ _ => by simp [hu]) ?_
    exact comes_value_blanks keyAllowed ts hrest.1 columnOf_gapTo
      ⟨'\n', by simp [gapTo_open], by decide⟩ hcandidate
  | @single t ht =>
    refine reads_of_token (fun _ => exec_single ht (by omega) (by simp [gapTo_open])) (fun _ => rfl)
      (fun _ _ => by simp) ?_
    exact comes_value_line hrest.1 hcandidate
  | @double t ht =>
    refine reads_of_token (fun _ => exec_double ht (by omega)) (fun _ => rfl) (fun _ _ => by simp)
      ?_
    exact comes_value_line hrest.1 hcandidate
  | @literal t ht =>
    refine reads_of_token (fun _ => exec_block ht hrest.1 hk) (fun _ => rfl) (fun _ _ => by simp) ?_
    have hcolumn : columnOf (before ++ ('|' :: ((blockHints cs).toList ++ '\n' :: t) ++
      gapTo true k)) = k := by
      have hends := (Spelled.literal ht).ends
      rw [gapTo_ended, ← List.append_assoc, columnOf_append_flat (flat_blanks k),
        List.length_replicate, columnOf_endsLine before hends, Nat.zero_add]
    have hbreak : ∃ b ∈ '|' :: ((blockHints cs).toList ++ '\n' :: t) ++ gapTo true k, isBreak b :=
      ⟨'\n', by simp, by decide⟩
    exact comes_value_blanks false ts hrest.1 hcolumn hbreak (by simp)

/-! ## Keys -/

/-- On the same line and within its reach, a candidate is still possible. -/
theorem not_isStale {before' : List Char} {m : Int} (hline : lineOf before' = lineOf before)
    (hlength : before'.length ≤ before.length + 1024) :
    ∀ q ∈ candidatesAt keyAllowed before ts m, isStale (between before' rest) q.2 = false := by
  intro q hq
  cases keyAllowed with
  | false => cases hq
  | true =>
    obtain rfl := List.mem_singleton.mp hq
    have hnot : ¬before.length + 1024 < before'.length := by omega
    simp [isStale, candidateAt, hline, hnot]

theorem stillPossible_self {before' : List Char} {m : Int} (hline : lineOf before' = lineOf before)
    (hlength : before'.length ≤ before.length + 1024) :
    stillPossible (between before' rest) (candidatesAt keyAllowed before ts m) =
      candidatesAt keyAllowed before ts m := by
  apply List.filter_eq_self.mpr
  intro q hq
  rw [not_isStale hline hlength q hq]
  rfl

section Keys

variable {indent : Int} {d : Char} {l : Nat → Lexer}

/-- A key has been read, and its colon follows. -/
theorem comes_colon (hflat : Flat S) (hlength : S.length ≤ 1024)
    (hindent : indent ≤ columnOf before)
    (hd : isBlankOrBreak d)
    (h : Comes (standing (before ++ S ++ [':']) (d :: more)
      (ts ++ (opening indent (columnOf before) .blockMapping ++
      [.key, .scalar isPlain (String.ofList cs)]) ++
        [.value]) (columnOf before) (around indent (columnOf before) outer) false []) l) :
    Comes (standing (before ++ S) (':' :: d :: more) (ts ++ [.scalar isPlain (String.ofList cs)])
    indent outer
      false (candidatesAt true before ts indent)) l := by
  have hcolumn : indent ≤ columnOf (before ++ S) := by
    rw [columnOf_append_flat hflat]
    omega
  have hline : lineOf (before ++ S) = lineOf before := by
    rw [lineOf_append, countP_of_flat hflat, Nat.add_zero]
  have hindex : (before ++ S).length ≤ before.length + 1024 := by
    rw [List.length_append]
    omega
  have hgap : Comes (standing (before ++ S) ([] ++ ':' :: d :: more)
      (ts ++ [.scalar isPlain (String.ofList cs)]) indent outer false
        (candidatesAt true before ts indent)) _ :=
    comes_gap (Gap.blanks 0) (opens_cons (by decide) (by decide) _) fun q hq hstale => by
      rw [List.append_nil, not_isStale hline hindex q hq] at hstale
      cases hstale
  rw [List.append_nil, List.nil_append, stillPossible_self hline hindex,
    leave_of_le hcolumn] at hgap
  refine hgap.trans (reads_of_token (fun _ => ?_) (fun _ => rfl) (fun _ _ => ?_) h)
  · rw [token_colon rfl hd]
    exact exec_valueMark_key rfl hindent
  · simp only [standing_cursor, Cursor.between_index, List.length_append, List.length_singleton,
      Nat.le_refl]

/-- **A spelled key is read back**, with the colon behind it. -/
theorem reads_key (h : Spelled (columnOf before + 2) cs isPlain false S) (hflat : Flat S)
    (hlength : S.length ≤ 1024) (hindent : indent ≤ columnOf before) (hd : isBlankOrBreak d)
    (hcomes : Comes (standing (before ++ S ++ [':']) (d :: more)
      (ts ++ (opening indent (columnOf before) .blockMapping ++
      [.key, .scalar isPlain (String.ofList cs)]) ++
        [.value]) (columnOf before) (around indent (columnOf before) outer) false []) l) :
    Reads (standing before (S ++ ':' :: d :: more) ts indent outer true []) l := by
  have hcolon := comes_colon hflat hlength hindent hd hcomes
  cases h with
  | plain hstart ht =>
    have hmark : startsMark (S ++ ':' :: d :: more) = false := hstart.startsMark ht (by simp)
    obtain ⟨ch, u, hu, htoken⟩ := exec_plainly before ts outer true hstart ht
      (Cursor.plainEnd_colon hd : Cursor.PlainEnd (indent + 1) (':' :: d :: more) false [] _)
        (by omega)
      (by omega) hindent (fun _ => hmark)
    rw [List.append_nil] at htoken
    exact reads_of_token htoken (fun _ => by rw [hu]; rfl) (fun _ _ => by simp [hu]) hcolon
  | @single t ht =>
    exact reads_of_token (fun _ => exec_single ht (by omega) (by simp)) (fun _ => rfl)
      (fun _ _ => by simp) hcolon
  | @double t ht =>
    exact reads_of_token (fun _ => exec_double ht (by omega)) (fun _ => rfl) (fun _ _ => by simp)
      hcolon

end Keys

end Lexer

end Yaml

end StepLoom
