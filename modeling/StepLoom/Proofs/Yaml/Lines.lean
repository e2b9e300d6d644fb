import StepLoom.Proofs.Yaml.Runs

/-!
# Double-quoted texts and literal blocks as they are written

A text between double quotes is written character by character, and goes on in the next line past
the line width (`written_double`). A literal block is written line by line (`written_literal`).
-/

namespace StepLoom

namespace Yaml

variable {c : Char} {cs ds w bs t pending : List Char} {level n : Nat} {fold isFirst : Bool}
  {p : Pen}

/-! ## Escapes -/

/-- A printable character of ASCII. -/
def IsPrintable (c : Char) : Prop := 0x20 ≤ c.toNat ∧ c.toNat ≤ 0x7E

instance (c : Char) : Decidable (IsPrintable c) := inferInstanceAs (Decidable (_ ∧ _))

theorem IsPrintable.isReadable (h : IsPrintable c) : isReadable c := by
  simp only [IsPrintable] at h
  simp only [Yaml.isReadable, Bool.or_eq_true, decide_eq_true_eq]
  omega

theorem IsPrintable.flat (h : IsPrintable c) : isBreak c = false ∧ isMarkOfOrder c = false := by
  constructor
  · rw [Bool.eq_false_iff]
    intro hbreak
    simp only [isBreak, Bool.or_eq_true, beq_iff_eq] at hbreak
    obtain ((rfl | rfl) | rfl) | rfl := hbreak <;> exact absurd h (by decide)
  · rw [isMarkOfOrder, beq_eq_false_iff_ne]
    simp only [IsPrintable] at h
    omega

theorem isPrintable_upperHex {width : Nat} (h : c ∈ upperHex width n) : IsPrintable c := by
  obtain ⟨d, hd, rfl⟩ := List.mem_map.mp h
  obtain ⟨d, hlt, rfl⟩ := exists_of_mem_hexDigits hd
  have hall : ∀ d < 16, IsPrintable d.digitChar.toUpper := by decide
  exact hall d hlt

theorem isPrintable_escapeDouble (h : c ∈ escapeDouble d) : IsPrintable c := by
  unfold escapeDouble at h
  generalize Text.codeOf d = n at h
  dsimp only at h
  obtain rfl | h := List.mem_cons.mp h
  · decide
  · cases hfind : letterEscapes.find? (·.1 == n) with
    | some q =>
      rw [hfind] at h
      obtain rfl : c = q.2 := List.mem_singleton.mp h
      have hall : ∀ q ∈ letterEscapes, IsPrintable q.2 := by decide
      exact hall q (List.mem_of_find?_eq_some hfind)
    | none =>
      rw [hfind] at h
      dsimp only at h
      split_ifs at h
      all_goals
        obtain rfl | h := List.mem_cons.mp h
        · decide
        · exact isPrintable_upperHex h

/-! ## Double quotes -/

/-- A character that stands for itself between double quotes. -/
theorem standsInDouble_iff (h : standsInDouble c) :
    isReadable c ∧ isBreak c = false ∧ isMarkOfOrder c = false ∧ c ≠ '"' ∧ c ≠ '\\' ∧
      (c ≠ ' ' → isBlankOrBreak c = false) := by
  have hne : ∀ d, standsInDouble d = false → c ≠ d := by
    rintro d hd rfl
    rw [h] at hd
    cases hd
  have hread : isReadable c := by
    simp only [standsInDouble, Bool.and_eq_true, Bool.or_eq_true, decide_eq_true_eq] at h
    simp only [isReadable, Bool.or_eq_true, decide_eq_true_eq]
    omega
  have hbreak : isBreak c = false := by
    simp [isBreak, hne '\n' (by decide), hne '\u0085' (by decide), hne '\u2028' (by decide),
      hne '\u2029' (by decide)]
  have hmark : isMarkOfOrder c = false := by
    simp only [standsInDouble, Bool.and_eq_true, Bool.not_eq_true', Bool.or_eq_false_iff] at h
    exact h.1.2
  refine ⟨hread, hbreak, hmark, hne '"' (by decide), hne '\\' (by decide), fun hspace => ?_⟩
  simp [isBlankOrBreak, hbreak, hspace, hne '\x00' (by decide), hne '\t' (by decide),
    hne '\r' (by decide)]

/-- A spelled text starts with a solid character, or with spaces and then with one. -/
theorem Doubly.starts (h : Doubly level cs t) : Solid (t ++ ['"']) ∨
    ∃ m ds u, cs = List.replicate (m + 1) ' ' ++ ds ∧ t = List.replicate (m + 1) ' ' ++ u ∧
      Solid (u ++ ['"']) ∧ Doubly level ds u := by
  cases h with
  | nil => exact Or.inl ⟨'"', [], rfl, by decide⟩
  | @char c _ t hc _ _ _ => exact Or.inl ⟨c, t ++ ['"'], rfl, hc⟩
  | @escape c _ t _ =>
    obtain ⟨body, hbody, -⟩ := Cursor.exists_escape c
    exact Or.inl ⟨'\\', body ++ t ++ ['"'], by rw [hbody]; simp, by decide⟩
  | @blank _ t _ => exact Or.inl ⟨'\\', ' ' :: t ++ ['"'], rfl, by decide⟩
  | @spaces ds u m hsolid h => exact Or.inr ⟨m, ds, u, rfl, rfl, hsolid, h⟩
  | @folded _ t _ _ => exact Or.inl ⟨'\\', '\n' :: List.replicate level ' ' ++ t ++
    ['"'], rfl, by decide⟩

theorem Doubly.solid (h : Doubly level cs t) (hcs : cs.head? ≠ some ' ') : Solid (t ++ ['"']) := by
  obtain hsolid | ⟨m, ds, u, rfl, -⟩ := h.starts
  · exact hsolid
  · simp [List.replicate_succ] at hcs

/-- A space as it stands. -/
theorem Doubly.space (h : Doubly level cs t) : Doubly level (' ' :: cs) (' ' :: t) := by
  obtain hsolid | ⟨m, ds, u, rfl, rfl, hsolid, h⟩ := h.starts
  · exact .spaces 0 hsolid h
  · exact .spaces (m + 1) hsolid h

theorem Doubly.stands (h : Doubly level cs t) (hc : standsInDouble c) :
    Doubly level (c :: cs) (c :: t) := by
  obtain ⟨-, -, -, hquote, hescape, hsolid⟩ := standsInDouble_iff hc
  by_cases hspace : c = ' '
  · rw [hspace]
    exact h.space
  · exact .char (hsolid hspace) hquote hescape h

/-- The text goes on in the next line here. -/
def goesOn (fold isFirst : Bool) (c : Char) (pending rest : List Char) (reached : Nat) : Bool :=
  fold && !isFirst && !rest.isEmpty && (isSpace c || pending.isEmpty) &&
    decide (lineWidth < reached)

/-- The pen in the next line. -/
def nextLine (level : Nat) (next : Option Char) (p : Pen) : Pen :=
  let p := { (p.text ['\\']).indentTo level with blank := false, indention := false }
  if next = some ' ' then p.text ['\\'] else p

theorem writeDoubleFrom_stands (h : standsInDouble c) (rest : List Char) :
    writeDoubleFrom level fold isFirst pending (c :: rest) p =
      if goesOn fold isFirst c pending rest (p.column + pending.length)
      then writeDoubleFrom level fold false [c] rest
      (nextLine level (some c) (p.text pending.reverse))
      else writeDoubleFrom level fold false (c :: pending) rest p := by
  rw [writeDoubleFrom]
  simp only [h, Bool.not_true, Bool.false_eq_true, if_false]
  cases hgoes : goesOn fold isFirst c pending rest (p.column + pending.length) with
  | true =>
    rw [goesOn] at hgoes
    simp only [hgoes, if_true, nextLine]
  | false =>
    rw [goesOn] at hgoes
    simp only [hgoes, Bool.false_eq_true, if_false]

theorem writeDoubleFrom_escaped (h : standsInDouble c = false) (rest : List Char) :
    writeDoubleFrom level fold isFirst pending (c :: rest) p =
      if goesOn fold isFirst c [] rest (((p.text pending.reverse).text (escapeDouble c)).column - 1)
      then writeDoubleFrom level fold false [] rest
        (nextLine level rest.head? ((p.text pending.reverse).text (escapeDouble c)))
      else writeDoubleFrom level fold false [] rest
      ((p.text pending.reverse).text (escapeDouble c)) := by
  rw [writeDoubleFrom]
  simp only [h, Bool.not_false, if_true]
  cases hgoes : goesOn fold isFirst c [] rest
    (((p.text pending.reverse).text (escapeDouble c)).column - 1) with
  | true =>
    rw [goesOn] at hgoes
    simp only [hgoes, if_true, nextLine, List.reverse_nil, Pen.text_nil]
  | false =>
    rw [goesOn] at hgoes
    simp only [hgoes, Bool.false_eq_true, if_false]

/-- Past the line width the pen goes to the next line. -/
theorem adds_nextLine (hwidth : level < lineWidth) (hcolumn : lineWidth < p.column)
    (next : Option Char) :
    p.Adds (nextLine level next p)
      ('\\' :: '\n' :: List.replicate level ' ' ++ if next = some ' ' then ['\\'] else []) ∧
    (nextLine level next p).column ≤ level + 1 := by
  have hpast : level < (p.text ['\\']).column := by
    simp only [Pen.text, List.length_singleton]
    omega
  have hgoes : Pen.Goes (p.text ['\\']) level ('\n' :: List.replicate level ' ') :=
    Pen.goes_line (Or.inr hpast)
  have hadds : p.Adds { (p.text ['\\']).indentTo level with blank := false, indention := false }
      ('\\' :: '\n' :: List.replicate level ' ') := (Pen.adds_text p ['\\']).trans hgoes.adds
  have hfree := hgoes.free.column_eq
  rw [nextLine]
  dsimp only
  split_ifs
  · refine ⟨hadds.trans (Pen.adds_text _ _), ?_⟩
    exact Nat.succ_le_succ (Nat.le_of_eq hfree)
  · exact ⟨by simpa using hadds, by simp [hfree]⟩

/-- No line goes on in the next one right at its beginning. -/
theorem not_goesOn {rest : List Char} {reached : Nat} (hwidth : level < lineWidth)
    (h : reached ≤ level + 1) :
    goesOn fold isFirst c pending rest reached = false := by
  have hnot : ¬lineWidth < reached := by omega
  simp [goesOn, hnot]

theorem lt_of_goesOn {rest : List Char} {reached : Nat}
    (h : goesOn fold isFirst c pending rest reached) :
    lineWidth < reached ∧ (isSpace c ∨ pending = []) := by
  simp only [goesOn, Bool.and_eq_true, Bool.or_eq_true, decide_eq_true_eq, List.isEmpty_iff] at h
  exact ⟨h.2, h.1.2⟩

theorem isReadable_folded (n : Nat) : ∀ c ∈ '\\' :: '\n' :: List.replicate n ' ', isReadable c :=
  List.forall_mem_cons.mpr ⟨rfl, isReadable_nextLine n⟩

/-- The pen writes characters between double quotes. -/
def WritesDouble (level : Nat) (cs : List Char) (p p' : Pen) : Prop :=
  ∃ t, p.Adds p' t ∧ Doubly level cs t ∧ ∀ c ∈ t, isReadable c

/-- A blank at which the text goes on in the next line stands behind a backslash there. -/
theorem folded_blank {p' : Pen} (hwidth : level < lineWidth) (hcolumn : lineWidth < p.column)
    (htail : (nextLine level (some ' ') p).Adds p' (' ' :: t)) (ht : Doubly level cs t)
    (hread : ∀ c ∈ t, isReadable c) : WritesDouble level (' ' :: cs) p p' := by
  obtain ⟨hadds, -⟩ := adds_nextLine hwidth hcolumn (some ' ')
  refine ⟨'\\' :: '\n' :: List.replicate level ' ' ++ ('\\' :: ' ' :: t),
    by simpa using hadds.trans htail,
    .folded ⟨'\\', ' ' :: t ++ ['"'], rfl, by decide⟩ (.blank ht), ?_⟩
  exact List.forall_mem_append.mpr ⟨isReadable_folded level,
    List.forall_mem_cons.mpr ⟨rfl, List.forall_mem_cons.mpr ⟨rfl, hread⟩⟩⟩

/-- Anything else goes on in the next line as it is. -/
theorem folded_solid {p' : Pen} {next : Option Char} (hwidth : level < lineWidth)
    (hcolumn : lineWidth < p.column) (hnext : next ≠ some ' ')
    (htail : (nextLine level next p).Adds p' t) (hsolid : Solid (t ++ ['"']))
    (ht : Doubly level cs t) (hread : ∀ c ∈ t, isReadable c) : WritesDouble level cs p p' := by
  obtain ⟨hadds, -⟩ := adds_nextLine hwidth hcolumn next
  refine ⟨'\\' :: '\n' :: List.replicate level ' ' ++ t, by simpa [hnext] using hadds.trans htail,
    .folded hsolid ht, ?_⟩
  exact List.forall_mem_append.mpr ⟨isReadable_folded level, hread⟩

/-- **The characters between double quotes spell the text.** -/
theorem written_doubleFrom (fold : Bool) (hwidth : level < lineWidth) (cs : List Char)
    (isFirst : Bool) (pending : List Char) (p : Pen) :
    ∃ t, p.Adds (writeDoubleFrom level fold isFirst pending cs p) (pending.reverse ++ t) ∧
      Doubly level cs t ∧ ∀ c ∈ t, isReadable c := by
  induction hlength : cs.length using Nat.strongRecOn generalizing cs isFirst pending p with
  | ind length ih =>
    cases cs with
    | nil =>
      refine ⟨[], ?_, .nil, List.forall_mem_nil _⟩
      rw [List.append_nil]
      exact Pen.adds_text p pending.reverse
    | cons c rest =>
      have ih' := fun rest' (h : rest'.length < length) isFirst pending p => ih _ h rest' isFirst
        pending p rfl
      have hrest : rest.length < length := by simp [← hlength]
      cases hc : standsInDouble c with
      | true =>
        obtain ⟨hread, -, -, -, -, hsolid⟩ := standsInDouble_iff hc
        rw [writeDoubleFrom_stands hc]
        split_ifs with hgoes
        · have hpast : lineWidth < (p.text pending.reverse).column := by
            simpa [Pen.text] using (lt_of_goesOn hgoes).1
          obtain ⟨t, htail, ht, hreadt⟩ :=
            ih' rest hrest false [c] (nextLine level (some c) (p.text pending.reverse))
          have hfolded : WritesDouble level (c :: rest) (p.text pending.reverse)
              (writeDoubleFrom level fold false [c] rest
                (nextLine level (some c) (p.text pending.reverse))) := by
            by_cases hspace : c = ' '
            · subst hspace
              exact folded_blank hwidth hpast htail ht hreadt
            · exact folded_solid hwidth hpast (by simpa using hspace) htail
                ⟨c, t ++ ['"'], rfl, hsolid hspace⟩ (ht.stands hc)
                (List.forall_mem_cons.mpr ⟨hread, hreadt⟩)
          obtain ⟨t', hadds, hspells⟩ := hfolded
          exact ⟨t', (Pen.adds_text p pending.reverse).trans hadds, hspells⟩
        · obtain ⟨t, htail, ht, hreadt⟩ := ih' rest hrest false (c :: pending) p
          exact ⟨c :: t, by simpa using htail, ht.stands hc, List.forall_mem_cons.mpr
            ⟨hread, hreadt⟩⟩
      | false =>
        rw [writeDoubleFrom_escaped hc]
        set q := (p.text pending.reverse).text (escapeDouble c) with hq
        have hescaped : p.Adds q (pending.reverse ++ escapeDouble c) :=
          (Pen.adds_text p pending.reverse).trans (Pen.adds_text _ (escapeDouble c))
        suffices hbehind : WritesDouble level rest q
            (if goesOn fold isFirst c [] rest (q.column - 1)
              then writeDoubleFrom level fold false [] rest (nextLine level rest.head? q)
              else writeDoubleFrom level fold false [] rest q) by
          obtain ⟨t, hadds, ht, hreadt⟩ := hbehind
          refine ⟨escapeDouble c ++ t, by simpa using hescaped.trans hadds, .escape ht, ?_⟩
          exact List.forall_mem_append.mpr
            ⟨fun d hd => (isPrintable_escapeDouble hd).isReadable, hreadt⟩
        split_ifs with hgoes
        · have hpast : lineWidth < q.column := by
            have := (lt_of_goesOn hgoes).1
            omega
          by_cases hspace : rest.head? = some ' '
          · obtain ⟨more, rfl⟩ := List.head?_eq_some_iff.mp hspace
            obtain ⟨t, htail, ht, hreadt⟩ := ih' more (by simp at hrest; omega) false [' ']
              (nextLine level (some ' ') q)
            -- The blank is the first character of the line, so that the text does not go on there.
            have hnext := (adds_nextLine hwidth hpast (some ' ')).2
            have hspaces : standsInDouble ' ' = true := by decide
            rw [List.head?_cons, writeDoubleFrom_stands hspaces,
              not_goesOn hwidth (by simpa using hnext), if_neg Bool.false_ne_true]
            exact folded_blank hwidth hpast htail ht hreadt
          · obtain ⟨t, htail, ht, hreadt⟩ := ih' rest hrest false [] (nextLine level rest.head? q)
            exact folded_solid hwidth hpast hspace htail (ht.solid hspace) ht hreadt
        · exact ih' rest hrest false [] q

/-! ## Literal blocks -/

/-- A text that may stand in a literal block. -/
structure IsBlockText (cs : List Char) : Prop where
  ordinary : ∀ c ∈ cs, isOrdinary c
  kept : ∀ c ∈ cs, isBreak c → IsKept c

theorem IsBlockText.tail (h : IsBlockText (c :: cs)) : IsBlockText cs where
  ordinary d hd := h.ordinary d (List.mem_cons_of_mem c hd)
  kept d hd := h.kept d (List.mem_cons_of_mem c hd)

/-- What the pen has written of a block when it comes to its end. -/
structure WritesBlock (p p' : Pen) (t : List Char) : Prop where
  adds : p.Adds p' t
  readable : ∀ c ∈ t, isReadable c
  free : Pen.Free 0 p'

theorem forall_mem_snoc {q : Char → Prop} (hw : ∀ d ∈ w, q d) (hc : q c) : ∀ d ∈ w ++ [c], q d :=
  List.forall_mem_append.mpr ⟨hw, by simpa using hc⟩

/-- The lines of a block, from inside a line on and from the beginning of one. -/
theorem written_lines (h : IsBlockText cs) :
    (∀ p : Pen, ∃ t, WritesBlock p (writeLiteralFrom level false cs p) t ∧
      ∀ w, w ≠ [] → (∀ c ∈ w, isBreak c = false) → Lined level (w ++ cs) (w ++ t)) ∧
    (∀ p : Pen, Pen.Free 0 p → ∃ t, WritesBlock p (writeLiteralFrom level true cs p) t ∧
      ∀ w bs, w ≠ [] → (∀ c ∈ w, isBreak c = false) → bs ≠ [] → (∀ b ∈ bs, IsKept b) →
        Lined level (w ++ bs ++ cs) (w ++ bs ++ t)) := by
  induction cs with
  | nil =>
    have hfeed : ∀ c ∈ ['\n'], isReadable c := List.forall_mem_singleton.mpr rfl
    refine ⟨fun p => ⟨['\n'], ⟨Pen.adds_lineBreak p '\n', hfeed, Pen.free_lineBreak p '\n'⟩, ?_⟩,
      fun p hp => ⟨[], ⟨Pen.Adds.refl p, List.forall_mem_nil _, hp⟩, ?_⟩⟩
    · intro w hne hw
      rw [List.append_nil]
      exact .open hne hw
    · intro w bs hne hw hbs hkept
      rw [List.append_nil]
      exact .closed hne hw hbs hkept
  | cons c rest ih =>
    obtain ⟨hinside, hstart⟩ := ih h.tail
    have hread := isReadable_of_isOrdinary (h.ordinary c (by simp))
    by_cases hbreak : isBreak c
    · have hkept := h.kept c (by simp) hbreak
      refine ⟨fun p => ?_, fun p hp => ?_⟩
      · obtain ⟨t, hwrites, ht⟩ := hstart (p.lineBreak c) (Pen.free_lineBreak p c)
        rw [writeLiteralFrom, if_pos hbreak]
        refine ⟨c :: t, ⟨(Pen.adds_lineBreak p c).trans hwrites.adds,
          List.forall_mem_cons.mpr ⟨hread, hwrites.readable⟩, hwrites.free⟩, fun w hne hw => ?_⟩
        have hlined := ht w [c] hne hw (by simp) (by simpa using hkept)
        rwa [List.append_assoc, List.append_assoc] at hlined
      · obtain ⟨t, hwrites, ht⟩ := hstart (p.lineBreak c) (Pen.free_lineBreak p c)
        rw [writeLiteralFrom, if_pos hbreak]
        refine ⟨c :: t, ⟨(Pen.adds_lineBreak p c).trans hwrites.adds,
          List.forall_mem_cons.mpr ⟨hread, hwrites.readable⟩, hwrites.free⟩,
            fun w bs hne hw hbs hkepts => ?_⟩
        have hlined := ht w (bs ++ [c]) hne hw (by simp) (forall_mem_snoc hkepts hkept)
        rwa [← List.append_assoc, List.append_assoc (w ++ bs),
          List.append_assoc (w ++ bs)] at hlined
    · have hno : isBreak c = false := by simpa using hbreak
      refine ⟨fun p => ?_, fun p hp => ?_⟩
      · obtain ⟨t, hwrites, ht⟩ := hinside (p.raw [c])
        rw [writeLiteralFrom, if_neg hbreak]
        refine ⟨c :: t, ⟨(Pen.adds_raw p [c]).trans hwrites.adds,
          List.forall_mem_cons.mpr ⟨hread, hwrites.readable⟩, hwrites.free⟩, fun w hne hw => ?_⟩
        have hlined := ht (w ++ [c]) (by simp) (forall_mem_snoc hw hno)
        rwa [List.append_assoc, List.append_assoc] at hlined
      · obtain ⟨t, hwrites, ht⟩ := hinside ((p.indentTo level).raw [c])
        rw [writeLiteralFrom, if_neg hbreak]
        refine ⟨List.replicate level ' ' ++ (c :: t), ⟨(hp.goes level).adds.trans
          ((Pen.adds_raw _ [c]).trans hwrites.adds), ?_, hwrites.free⟩,
            fun w bs hne hw hbs hkepts => ?_⟩
        · exact List.forall_mem_append.mpr ⟨isReadable_blanks level,
            List.forall_mem_cons.mpr ⟨hread, hwrites.readable⟩⟩
        · have hlined := Lined.more hne hw hbs hkepts (ht [c] (by simp) (by simpa using hno))
          rwa [List.append_assoc (w ++ bs)] at hlined

/-- **The lines of a block spell the text.** -/
theorem written_block (h : IsBlockText cs) (hne : cs ≠ []) (hp : Pen.Free 0 p) :
    ∃ t, WritesBlock p (writeLiteralFrom level true cs p) t ∧ BlockText level cs t := by
  have hblanks : ∀ (cs bs : List Char) (p : Pen), IsBlockText cs → Pen.Free 0 p → bs ++ cs ≠ [] →
      (∀ b ∈ bs, IsKept b) → ∃ t, WritesBlock p (writeLiteralFrom level true cs p) t ∧
        BlockText level (bs ++ cs) (bs ++ t) := by
    intro cs
    induction cs with
    | nil =>
      intro bs p _ hp hne hbs
      refine ⟨[], ⟨Pen.Adds.refl p, List.forall_mem_nil _, hp⟩, ?_⟩
      rw [List.append_nil] at hne ⊢
      exact .blank hne hbs
    | cons c rest ih =>
      intro bs p h hp hne hbs
      have hread := isReadable_of_isOrdinary (h.ordinary c (by simp))
      by_cases hbreak : isBreak c
      · have hkept := h.kept c (by simp) hbreak
        obtain ⟨t, hwrites, ht⟩ :=
          ih (bs ++ [c]) (p.lineBreak c) h.tail (Pen.free_lineBreak p c) (by simp)
          (forall_mem_snoc hbs hkept)
        rw [writeLiteralFrom, if_pos hbreak]
        refine ⟨c :: t, ⟨(Pen.adds_lineBreak p c).trans hwrites.adds,
          List.forall_mem_cons.mpr ⟨hread, hwrites.readable⟩, hwrites.free⟩, ?_⟩
        rwa [List.append_assoc, List.append_assoc] at ht
      · obtain ⟨t, hwrites, ht⟩ := (written_lines h.tail).1 ((p.indentTo level).raw [c])
        rw [writeLiteralFrom, if_neg hbreak]
        refine ⟨List.replicate level ' ' ++ (c :: t), ⟨(hp.goes level).adds.trans
          ((Pen.adds_raw _ [c]).trans hwrites.adds), ?_, hwrites.free⟩, ?_⟩
        · exact List.forall_mem_append.mpr ⟨isReadable_blanks level,
            List.forall_mem_cons.mpr ⟨hread, hwrites.readable⟩⟩
        · have hlined := BlockText.lines hbs (ht [c] (by simp) (by simpa using hbreak))
          rwa [List.append_assoc bs] at hlined
  exact hblanks cs [] p h hp hne (List.forall_mem_nil _)

end Yaml

end StepLoom
