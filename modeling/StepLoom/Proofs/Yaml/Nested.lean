import StepLoom.Proofs.Yaml.Spelled

/-!
# Nested values are read back

`ValueText` says of the text behind a mark, and `EntryText` of the text of one or more entries at a
column, that the lexer reads certain tokens there, whatever comes before and behind. Values are made
of entries and entries of values, so the tokens of a whole document follow from those of its
scalars.
-/

namespace StepLoom

namespace Yaml

open Cursor (between)
open Lexer

/-- The text behind a mark at column `n` or behind a key. After a mark, a collection may start on
the same line (`marked`). -/
structure ValueText (n : Nat) (marked : Bool) (text : List Char) (ended : Bool) (us : List Token) :
    Prop where
  head : ∃ d more, text = d :: more ∧ isBlankOrBreak d
  ends : ended → EndsLine text
  reads : ∀ before rest k ts outer, n < columnOf before → (marked → columnOf before = n + 1) →
    k ≤ n → Follows ended k rest →
    Comes (standing before (text ++ (gapTo ended k ++ rest)) ts n outer marked [])
      (leave k (standing (before ++ (text ++ gapTo ended k)) rest (ts ++ us) n outer true []))

/-- The text of entries at a column, the first of which begins the collection if none is open
there. -/
structure EntryText (collection : Token) (column : Nat) (text : List Char) (ended : Bool)
    (us : List Token) : Prop where
  starts : ∀ k rest, Follows false k (text ++ rest)
  ends : ended → EndsLine text
  reads : ∀ before rest k ts (indent : Int) outer, columnOf before = column → indent ≤ column →
    k ≤ column → Follows ended k rest →
    Reads (standing before (text ++ (gapTo ended k ++ rest)) ts indent outer true [])
      (leave k (standing (before ++ (text ++ gapTo ended k)) rest
        (ts ++ (opening indent column collection ++ us)) column (around indent column outer) true
          []))

variable {collection : Token} {n i : Nat} {marked ended ended' isPlain : Bool}
  {cs S T : List Char} {us us' : List Token}

/-! ## Entries -/

theorem Follows.of_ended {k : Nat} {rest : List Char} (h : Follows false k rest) (ended : Bool) :
    Follows ended k rest := ⟨h.1, fun hk _ => h.2 hk rfl⟩

theorem opening_self (column : Nat) (collection : Token) :
    opening column column collection = [] := by
  simp [opening]

theorem around_self (column : Nat) (outer : List Int) : around column column outer = outer := by
  simp [around]

/-- What follows a value stands at its column. -/
theorem columnOf_follow (before : List Char) (h : ended → EndsLine S) (k : Nat) :
    columnOf (before ++ (S ++ gapTo ended k)) = k := by
  cases ended with
  | false => exact columnOf_gapTo
  | true =>
    rw [gapTo_ended, ← List.append_assoc, columnOf_append_flat (flat_blanks k),
      List.length_replicate, columnOf_endsLine before (h rfl), Nat.zero_add]

/-- **More entries** at the same column. -/
theorem EntryText.append (h : EntryText collection i S ended us)
    (h' : EntryText collection i T ended' us') :
    EntryText collection i (S ++ gapTo ended i ++ T) ended' (us ++ us') where
  starts k rest := by
    rw [List.append_assoc, List.append_assoc]
    exact h.starts k _
  ends hended := (h'.ends hended).append _
  reads before rest k ts indent outer hcolumn hindent hk hrest := by
    have hfirst := h.reads before (T ++ (gapTo ended' k ++ rest)) i ts indent outer hcolumn hindent
      (Nat.le_refl i) ((h'.starts i _).of_ended ended)
    rw [leave_of_le (Int.le_refl _)] at hfirst
    have hsecond := h'.reads (before ++ (S ++ gapTo ended i)) rest k
      (ts ++ (opening indent i collection ++ us)) i (around indent i outer)
      (columnOf_follow before h.ends i) (Int.le_refl _) hk hrest
    rw [opening_self, around_self] at hsecond
    simpa using hfirst.trans hsecond

theorem follows_mark {ch d : Char} {k : Nat} {rest : List Char} (hsolid : isBlankOrBreak ch = false)
    (hcomment : ch ≠ '#') (hd : d ≠ ch) : Follows false k (ch :: d :: rest) := by
  refine ⟨fun e he => ?_, fun _ _ => ?_⟩
  · obtain rfl : ch = e := by simpa using he
    exact ⟨hsolid, hcomment⟩
  · have hno : ∀ m, [m, m, m].isPrefixOf (ch :: d :: rest) = false := by
      intro m
      rw [Bool.eq_false_iff]
      intro hyes
      obtain ⟨more, hmore⟩ := List.isPrefixOf_iff_prefix.mp hyes
      simp only [List.cons_append, List.cons.injEq] at hmore
      exact hd (hmore.2.1.symm.trans hmore.1)
    simp only [startsMark, Cursor.isAtDocumentMark, Cursor.isAtMark, Cursor.ofText, hno,
      Bool.false_and, Bool.or_false]

/-- An item behind its mark. -/
theorem EntryText.item (h : ValueText i true S ended us) :
    EntryText .blockSequence i ('-' :: S) ended (.entry :: us) where
  starts k rest := by
    obtain ⟨d, more, rfl, hd⟩ := h.head
    exact follows_mark (by decide) (by decide) (by rintro rfl; exact absurd hd (by decide))
  ends hended := (h.ends hended).append ['-']
  reads before rest k ts indent outer hcolumn hindent hk hrest := by
    obtain ⟨d, more, hS, hd⟩ := h.head
    have hcolumn' : columnOf (before ++ ['-']) = i + 1 := by
      rw [columnOf_snoc (by decide), hcolumn]
      rfl
    have hvalue := h.reads (before ++ ['-']) rest k (ts ++ opening indent i .blockSequence ++
      [.entry])
      (around indent i outer) (by omega) (fun _ => hcolumn') hk hrest
    subst hcolumn
    have hreads : Reads (standing before ('-' :: (S ++ (gapTo ended k ++ rest))) ts indent outer
      true []) _ :=
      reads_of_token (fun c => by
        rw [token_entry (by rw [hS]; rfl) hd]
        exact exec_blockMark hindent) (fun _ => rfl) (fun _ _ => by simp) hvalue
    simpa using hreads

/-! ## Values -/

/-- To the beginning of a value. -/
theorem comes_lead {gap rest : List Char} {crossed allowed : Bool} {before : List Char}
    {ts : List Token}
    {outer : List Int} {l : Nat → Lexer} (hgap : Gap crossed gap) (hrest : Opens rest)
    (hcolumn : n ≤ columnOf (before ++ gap))
    (h : Reads (standing (before ++ gap) rest ts n outer (allowed || crossed) []) l) :
    Comes (standing before (gap ++ rest) ts n outer allowed []) l := by
  have hcomes : Comes (standing before (gap ++ rest) ts n outer allowed []) _ :=
    comes_gap hgap hrest fun _ hq => absurd hq List.not_mem_nil
  rw [leave_of_le (by omega)] at hcomes
  exact hcomes.trans h

/-- A scalar. -/
theorem ValueText.scalar (h : Spelled (n + 2) cs isPlain ended S) :
    ValueText n marked (' ' :: S) ended [.scalar isPlain (String.ofList cs)] where
  head := ⟨' ', S, rfl, by decide⟩
  ends hended := by
    subst hended
    exact h.ends.append [' ']
  reads before rest k ts outer hn hmarked hk hrest := by
    have hcolumn : columnOf (before ++ [' ']) = columnOf before + 1 := columnOf_snoc (by decide)
    have hreads := reads_spelled (before ++ [' ']) ts outer marked h (by omega) hk hrest
    have hcomes : Comes (standing before ([' '] ++ (S ++ (gapTo ended k ++ rest))) ts n outer marked
      []) _ :=
      comes_lead (Gap.blanks 1) (h.opens _) (by omega)
        (by rw [Bool.or_false]; exact hreads)
    simpa using hcomes

/-- To the entries of a collection, which begin on the same line or on the next one. -/
def leadTo (marked : Bool) (column : Nat) : List Char :=
  if marked then [' '] else '\n' :: List.replicate column ' '

theorem gap_leadTo (marked : Bool) (column : Nat) : Gap (!marked) (leadTo marked column) := by
  cases marked with
  | false => exact Gap.line column
  | true => exact Gap.blanks 1

theorem columnOf_leadTo {before : List Char} (h : marked → columnOf before + 1 = i) :
    columnOf (before ++ leadTo marked i) = i := by
  cases marked with
  | false =>
    have hline : columnOf (before ++ '\n' :: List.replicate i ' ') =
        (List.replicate i ' ').length :=
      columnOf_line (by decide) (flat_blanks i)
    rwa [List.length_replicate] at hline
  | true =>
    have hsnoc : columnOf (before ++ [' ']) = columnOf before + 1 := columnOf_snoc (by decide)
    have hnext := h rfl
    simp only [leadTo, if_true]
    rw [hsnoc, ← hnext]

theorem leadTo_head (marked : Bool) (column : Nat) (S : List Char) :
    ∃ d more, leadTo marked column ++ S = d :: more ∧ isBlankOrBreak d := by
  cases marked with
  | false => exact ⟨'\n', List.replicate column ' ' ++ S, rfl, by decide⟩
  | true => exact ⟨' ', S, rfl, by decide⟩

/-- A collection that is indented. -/
theorem ValueText.indented (h : EntryText collection (n + 2) S ended us) :
    ValueText n marked (leadTo marked (n + 2) ++ S) ended (collection :: us ++ [.blockEnd]) where
  head := leadTo_head marked (n + 2) S
  ends hended := (h.ends hended).append _
  reads before rest k ts outer hn hmarked hk hrest := by
    have hcolumn : columnOf (before ++ leadTo marked (n + 2)) = n + 2 :=
      columnOf_leadTo fun hm => by rw [hmarked hm]
    have hopening : opening n (n + 2) collection = [collection] := by
      rw [opening, if_pos (by omega)]
    have haround : around n (n + 2) outer = (n : Int) :: outer := by
      rw [around, if_pos (by omega)]
    have hentries := h.reads (before ++ leadTo marked (n + 2)) rest k ts n outer hcolumn (by omega)
      (by omega) hrest
    rw [hopening, haround, leave_of_lt (by omega)] at hentries
    have hcomes : Comes (standing before (leadTo marked (n + 2) ++ (S ++ (gapTo ended k ++ rest)))
      ts n
        outer marked []) _ :=
      comes_lead (gap_leadTo marked (n + 2)) (h.starts k _).1 (by omega) (by simpa using hentries)
    simpa using hcomes

/-- A list that is not indented, in a field. -/
theorem ValueText.level (h : EntryText .blockSequence n S ended us) :
    ValueText n false (leadTo false n ++ S) ended us where
  head := leadTo_head false n S
  ends hended := (h.ends hended).append _
  reads before rest k ts outer hn hmarked hk hrest := by
    have hcolumn : columnOf (before ++ leadTo false n) = n := columnOf_leadTo (by simp)
    have hentries := h.reads (before ++ leadTo false n) rest k ts n outer hcolumn (Int.le_refl _) hk
      hrest
    rw [opening_self, around_self] at hentries
    have hcomes : Comes (standing before (leadTo false n ++ (S ++ (gapTo ended k ++ rest))) ts n
        outer false []) _ :=
      comes_lead (gap_leadTo false n) (h.starts k _).1 (by omega) (by simpa using hentries)
    simpa using hcomes

/-! ## Fields -/

/-- A field whose key stands in front of the colon. -/
theorem EntryText.field (hkey : Spelled (i + 2) cs isPlain false S) (hflat : Flat S)
    (hlength : S.length ≤ 1024) (h : ValueText i false T ended us) :
    EntryText .blockMapping i (S ++ ':' :: T) ended
      (.key :: .scalar isPlain (String.ofList cs) :: .value :: us) where
  starts k rest := by
    rw [List.append_assoc]
    exact ⟨hkey.opens _, fun _ _ => hkey.startsMark⟩
  ends hended := by
    simpa using (h.ends hended).append (S ++ [':'])
  reads before rest k ts indent outer hcolumn hindent hk hrest := by
    subst hcolumn
    obtain ⟨d, more, rfl, hd⟩ := h.head
    have hcolumn : columnOf (before ++ S ++ [':']) = columnOf before + S.length + 1 := by
      rw [columnOf_snoc (by decide), columnOf_append_flat hflat]
      rfl
    have hvalue := h.reads (before ++ S ++ [':']) rest k
      (ts ++ (opening indent (columnOf before) .blockMapping ++
        [.key, .scalar isPlain (String.ofList cs)]) ++ [.value])
      (around indent (columnOf before) outer) (by omega) (by simp) hk hrest
    have hreads := reads_key hkey hflat hlength hindent hd hvalue
    simpa using hreads

/-- A field whose key has lines of its own. -/
theorem EntryText.longField (hkey : ValueText i true S ended' us')
    (h : ValueText i true T ended us) :
    EntryText .blockMapping i ('?' :: S ++ gapTo ended' i ++ ':' :: T) ended
      (.key :: us' ++ .value :: us) where
  starts k rest := by
    obtain ⟨d, more, rfl, hd⟩ := hkey.head
    exact follows_mark (by decide) (by decide) (by rintro rfl; exact absurd hd (by decide))
  ends hended := by
    simpa using (h.ends hended).append ('?' :: S ++ gapTo ended' i ++ [':'])
  reads before rest k ts indent outer hcolumn hindent hk hrest := by
    obtain ⟨d, more, hS, hd⟩ := hkey.head
    obtain ⟨e, more', hT, he⟩ := h.head
    have hcolumn' : columnOf (before ++ ['?']) = i + 1 := by
      rw [columnOf_snoc (by decide), hcolumn]
      rfl
    have hfollow : columnOf (before ++ ['?'] ++ (S ++ gapTo ended' i)) = i :=
      columnOf_follow _ hkey.ends i
    have hcolon : columnOf (before ++ ['?'] ++ (S ++ gapTo ended' i) ++ [':']) = i + 1 := by
      rw [columnOf_snoc (by decide), hfollow]
      rfl
    have hmark : Follows false i (':' :: (T ++ (gapTo ended k ++ rest))) := by
      rw [hT]
      exact follows_mark (by decide) (by decide) (by rintro rfl; exact absurd he (by decide))
    have hkeyReads := hkey.reads (before ++ ['?']) (':' :: (T ++ (gapTo ended k ++ rest))) i
      (ts ++ opening indent i .blockMapping ++ [.key]) (around indent i outer) (by omega)
      (fun _ => hcolumn') (Nat.le_refl i) (hmark.of_ended ended')
    rw [leave_of_le (Int.le_refl _)] at hkeyReads
    have hvalue := h.reads (before ++ ['?'] ++ (S ++ gapTo ended' i) ++ [':']) rest k
      (ts ++ opening indent i .blockMapping ++ [.key] ++ us' ++ [.value]) (around indent i outer)
      (by omega) (fun _ => hcolon) hk hrest
    have hcolonReads : Reads (standing (before ++ ['?'] ++ (S ++ gapTo ended' i))
        (':' :: (T ++ (gapTo ended k ++ rest)))
        (ts ++ opening indent i .blockMapping ++ [.key] ++ us') i (around indent i outer) true [])
          _ :=
      reads_of_token (fun c => by
        rw [token_colon (by rw [hT]; rfl) he]
        exact exec_valueMark_line (by rw [hfollow])) (fun _ => rfl) (fun _ _ => by
        simp only [standing_cursor, Cursor.between_index, List.length_append, List.length_singleton,
          Nat.le_refl]) hvalue
    subst hcolumn
    have hreads : Reads (standing before
        ('?' :: (S ++ (gapTo ended' (columnOf before) ++ ':' :: (T ++ (gapTo ended k ++ rest))))) ts
          indent
        outer true []) _ :=
      reads_of_token (fun c => by
        rw [token_question (by rw [hS]; rfl) hd]
        exact exec_blockMark hindent) (fun _ => rfl) (fun _ _ => by simp)
          (hkeyReads.trans hcolonReads)
    simpa using hreads

/-! ## Empty collections -/

namespace Lexer

variable {before rest : List Char} {ts : List Token} {indent : Int} {outer : List Int}
  {candidates : List (Nat × Candidate)} {keyAllowed : Bool} {c : Nat}

/-- A lexer between two parts of a text, inside one pair of brackets. -/
def inside (before rest : List Char) (ts : List Token) (indent : Int) (outer : List Int)
    (candidates : List (Nat × Candidate)) (certain : Nat) : Lexer :=
  { standing before rest ts indent outer true candidates certain with flowDepth := 1 }

theorem exec_openFlow {ch : Char} (t : Token) :
    exec (openFlow t) (standing before (ch :: rest) ts indent outer keyAllowed [] c) =
      (.ok (), inside (before ++ [ch]) rest (ts ++ [t]) indent outer
        (candidatesAt keyAllowed before ts indent) c) := by
  rw [openFlow, exec_bind_ok exec_remember, exec_bind_ok (exec_modify _), mark, emit,
    exec_bind_ok (exec_modify _), exec_modify]
  simp [standing, inside, Cursor.skip]

theorem exec_closeFlow {ch : Char} {before' : List Char} {ts' : List Token} (t : Token) :
    exec (closeFlow t) (inside before (ch :: rest) ts indent outer
        (candidatesAt keyAllowed before' ts' indent) c) =
      (.ok (), standing (before ++ [ch]) rest (ts ++ [t]) indent outer false
        (candidatesAt keyAllowed before' ts' indent) c) := by
  have hforget : exec forget (inside before (ch :: rest) ts indent outer
      (candidatesAt keyAllowed before' ts' indent) c) =
      (.ok (), inside before (ch :: rest) ts indent outer
        (candidatesAt keyAllowed before' ts' indent) c) := by
    cases keyAllowed <;> rfl
  rw [closeFlow, exec_bind_ok hforget, exec_bind_ok exec_get]
  change exec (do
    modify fun l : Lexer => { l with flowDepth := l.flowDepth - 1, keyAllowed := false }
    mark t 1) _ = _
  rw [exec_bind_ok (exec_modify _), mark, emit, exec_bind_ok (exec_modify _), exec_modify]
  simp [standing, inside, Cursor.skip]

/-- No gap stands inside the brackets of an empty collection. -/
theorem comes_inside {l : Nat → Lexer} {before' : List Char} {ts' : List Token}
    (hopens : Opens rest) (hline : lineOf before = lineOf before')
    (hindex : before.length ≤ before'.length + 1024)
    (h : Reads
      (inside before rest ts indent outer (candidatesAt keyAllowed before' ts' indent)) l) :
    Comes (inside before rest ts indent outer (candidatesAt keyAllowed before' ts' indent)) l := by
  have hprepare : ∀ c, ∃ c', exec prepare (inside before rest ts indent outer
        (candidatesAt keyAllowed before' ts' indent) c) =
      (.ok (), inside before rest ts indent outer
        (candidatesAt keyAllowed before' ts' indent) c') := by
    intro c
    have hskip : (between before rest).skipSpaces.skipComment = between before rest := by
      have hgap : (between before (List.replicate 0 ' ' ++ rest)).skipSpaces.skipComment = _ :=
        skip_gap hopens 0
      simpa using hgap
    have htoNext : ∀ c, toNextToken ((between before rest).room + 1)
          (inside before rest ts indent outer (candidatesAt keyAllowed before' ts' indent) c) =
        inside before rest ts indent outer (candidatesAt keyAllowed before' ts' indent) c := by
      intro c
      have hend :
          (!(between before rest).isAtEnd && (between before rest).isAtLineEnd) = false := by
        cases rest with
        | nil => rfl
        | cons d more =>
          have hd : isBreak d = false := by simpa using hopens.not_isBreak
          simp [Cursor.isAtEnd, Cursor.isAtLineEnd, hd]
      rw [toNextToken]
      simp only [inside, standing_cursor, hskip, hend]
      rfl
    have hforget : ∀ c, exec forgetStale (inside before rest ts indent outer
          (candidatesAt keyAllowed before' ts' indent) c) =
        (.ok (), inside before rest ts indent outer
          (candidatesAt keyAllowed before' ts' indent) c) := by
      intro c
      have hall : stillPossible (between before rest) (candidatesAt keyAllowed before' ts' indent) =
          candidatesAt keyAllowed before' ts' indent := stillPossible_self hline hindex
      rw [exec_forgetStale fun q hq hstale => by
        simp [inside, not_isStale hline hindex q hq] at hstale]
      simp only [inside, standing_cursor, standing_candidates, hall]
    obtain ⟨c', hc'⟩ : ∃ c', settle
          (inside before rest ts indent outer (candidatesAt keyAllowed before' ts' indent) c) =
        inside before rest ts indent outer (candidatesAt keyAllowed before' ts' indent) c' :=
      ⟨_, rfl⟩
    refine ⟨c', ?_⟩
    have hnext := htoNext c'
    rw [prepare, exec_bind_ok (exec_modify _), hc', exec_bind_ok (exec_modify _)]
    change exec (forgetStale >>= _) (toNextToken ((between before rest).room + 1) _) = _
    rw [hnext, exec_bind_ok (hforget c'), exec_bind_ok exec_get]
    rfl
  exact (comes_of_prepare (fun _ _ => by simp [inside]) hprepare).trans h

/-- The token that a bracket begins, whatever the lexer has read before. -/
def Opening (ch : Char) (step : Step Unit) : Prop :=
  ∀ l : Lexer, l.cursor.rest.head? = some ch → exec (token ch) l = exec step l

theorem not_isAtMark {cursor : Cursor} {ch m : Char} (h : cursor.rest.head? = some ch)
    (hne : m ≠ ch) :
    cursor.isAtMark m = false := by
  cases hrest : cursor.rest with
  | nil => simp [hrest] at h
  | cons d more =>
    obtain rfl : d = ch := by simpa [hrest] using h
    simp [Cursor.isAtMark, hrest, hne]

theorem token_openBracket : Opening '[' (openFlow .openBracket) := by
  intro l h
  rw [token, exec_bind_ok exec_get]
  simp [not_isAtMark h]

theorem token_closeBracket : Opening ']' (closeFlow .closeBracket) := by
  intro l h
  rw [token, exec_bind_ok exec_get]
  simp [not_isAtMark h]

theorem token_openBrace : Opening '\x7b' (openFlow .openBrace) := by
  intro l h
  rw [token, exec_bind_ok exec_get]
  simp [not_isAtMark h]

theorem token_closeBrace : Opening '\x7d' (closeFlow .closeBrace) := by
  intro l h
  rw [token, exec_bind_ok exec_get]
  simp [not_isAtMark h]

end Lexer

/-- An empty collection. -/
theorem ValueText.flow {o e : Char} {first last : Token} (hopen : Opening o (openFlow first))
    (hclose : Opening e (closeFlow last)) (ho : isBlankOrBreak o = false ∧ o ≠ '#')
    (he : isBlankOrBreak e = false ∧ e ≠ '#') :
    ValueText n marked [' ', o, e] false [first, last] where
  head := ⟨' ', [o, e], rfl, by decide⟩
  ends := by simp
  reads before rest k ts outer hn hmarked hk hrest := by
    have hcolumn : columnOf (before ++ [' ']) = columnOf before + 1 := columnOf_snoc (by decide)
    have hline : lineOf (before ++ [' '] ++ [o]) = lineOf (before ++ [' ']) := by
      rw [lineOf_append]
      simp [Cursor.isBreak_of_solid ho.1]
    have hlast : Comes (standing (before ++ [' '] ++ [o, e]) (gapTo false k ++ rest)
        (ts ++ [first] ++ [last]) n outer false (candidatesAt marked (before ++ [' ']) ts n)) _ :=
      comes_value_line hrest.1 fun _ => by omega
    have hinside : Reads (inside (before ++ [' '] ++ [o]) (e :: (gapTo false k ++ rest))
        (ts ++ [first]) n outer (candidatesAt marked (before ++ [' ']) ts n)) _ :=
      reads_of_token (fun c => by
        rw [hclose _ rfl, exec_closeFlow, List.append_assoc (before ++ [' '])]
        rfl) (fun _ => rfl) (fun _ _ => by simp [inside]) hlast
    have hfirst : Reads (standing (before ++ [' ']) (o :: e :: (gapTo false k ++ rest)) ts n outer
      marked []) _ :=
      reads_of_token (fun c => by
        rw [hopen _ rfl]
        exact exec_openFlow first) (fun _ => rfl) (fun _ _ => by simp [inside])
        (comes_inside (opens_cons he.1 he.2 _) hline (by simp) hinside)
    have hcomes : Comes (standing before ([' '] ++ (o :: e :: (gapTo false k ++ rest))) ts n outer
      marked []) _ :=
      comes_lead (Gap.blanks 1) (opens_cons ho.1 ho.2 _) (by omega)
        (by rw [Bool.or_false]; exact hfirst)
    simpa using hcomes

theorem ValueText.emptyList : ValueText n marked " []".toList false [.openBracket, .closeBracket] :=
  ValueText.flow token_openBracket token_closeBracket (by decide) (by decide)

theorem ValueText.emptyMap :
    ValueText n marked " \x7b\x7d".toList false [.openBrace, .closeBrace] :=
  ValueText.flow token_openBrace token_closeBrace (by decide) (by decide)

end Yaml

end StepLoom
