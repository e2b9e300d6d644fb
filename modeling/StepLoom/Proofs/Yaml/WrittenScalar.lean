import StepLoom.Proofs.Yaml.Composed
import StepLoom.Proofs.Yaml.Lines

/-!
# Scalars are written as they are read

Whatever style is chosen for a scalar, the pen spells its text (`written_scalar`). A key in front of
its colon is spelled on one line (`written_key`).
-/

namespace StepLoom

namespace Yaml

variable {c : Char} {cs pending : List Char} {rs : List Run} {level n : Nat}
  {isFirst marked isKey : Bool} {p : Pen}
  {s : Scalar} {place : Place}

/-! ## On one line -/

theorem adds_plainRuns (h : Splits rs cs) (isFirst : Bool) (p : Pen) :
    p.Adds (writePlainRuns level false isFirst rs p) cs := by
  induction h generalizing isFirst p with
  | nil => exact Pen.Adds.refl p
  | spaces n _ _ ih =>
    rw [writePlainRuns]
    simp only [foldsAt, Bool.and_false, Bool.false_and, Bool.false_eq_true, if_false]
    exact (Pen.adds_text p _).trans (ih false _)
  | breaks _ _ _ _ ih => exact (Pen.adds_text p _).trans (ih false _)
  | word _ _ _ _ ih => exact (Pen.adds_text p _).trans (ih false _)

theorem doubleQuotes_append (w cs : List Char) : doubleQuotes (w ++ cs) =
    doubleQuotes w ++ doubleQuotes cs :=
  List.flatMap_append

theorem doubleQuotes_blanks (n : Nat) : doubleQuotes (List.replicate n ' ') =
    List.replicate n ' ' := by
  induction n with
  | zero => rfl
  | succ n ih => rw [List.replicate_succ, ← List.singleton_append, doubleQuotes_append, ih]; rfl

theorem adds_singleRuns (h : Splits rs cs) (hcs : ∀ c ∈ cs, isBreak c = false)
    (isFirst : Bool) (p : Pen) :
    p.Adds (writeSingleRuns level false isFirst rs p) (doubleQuotes cs) := by
  induction h generalizing isFirst p with
  | nil => exact Pen.Adds.refl p
  | @spaces rs cs n _ _ ih =>
    rw [writeSingleRuns, doubleQuotes_append, doubleQuotes_blanks]
    simp only [foldsAt, Bool.and_false, Bool.false_and, Bool.false_eq_true, if_false]
    exact (Pen.adds_text p _).trans (ih (fun c hc => hcs c (List.mem_append_right _ hc)) false _)
  | @breaks bs cs rs hne hbs _ _ _ =>
    obtain ⟨b, bs, rfl⟩ := List.exists_cons_of_ne_nil hne
    have hb := hcs b (by simp)
    rw [hbs b (by simp)] at hb
    cases hb
  | @word w cs rs _ _ _ _ ih =>
    rw [writeSingleRuns, doubleQuotes_append]
    exact (Pen.adds_text p _).trans (ih (fun c hc => hcs c (List.mem_append_right _ hc)) false _)

/-- A character between double quotes. -/
def inDouble (c : Char) : List Char := if standsInDouble c then [c] else escapeDouble c

theorem adds_doubleFrom (cs : List Char) (isFirst : Bool) (pending : List Char) (p : Pen) :
    p.Adds (writeDoubleFrom level false isFirst pending cs p)
    (pending.reverse ++ cs.flatMap inDouble) := by
  induction cs generalizing isFirst pending p with
  | nil => simpa [writeDoubleFrom] using Pen.adds_text p pending.reverse
  | cons c rest ih =>
    rw [List.flatMap_cons]
    cases hc : standsInDouble c with
    | true =>
      have hone : inDouble c = [c] := by rw [inDouble, hc, if_pos rfl]
      rw [writeDoubleFrom_stands hc, goesOn, Bool.false_and, Bool.false_and, Bool.false_and,
        Bool.false_and, if_neg Bool.false_ne_true, hone]
      simpa using ih false (c :: pending) p
    | false =>
      have hone : inDouble c = escapeDouble c := by rw [inDouble, hc, if_neg Bool.false_ne_true]
      rw [writeDoubleFrom_escaped hc, goesOn, Bool.false_and, Bool.false_and, Bool.false_and,
        Bool.false_and, if_neg Bool.false_ne_true, hone]
      have hescaped := (Pen.adds_text p pending.reverse).trans
        (Pen.adds_text (p.text pending.reverse) (escapeDouble c))
      simpa using hescaped.trans (ih false [] ((p.text pending.reverse).text (escapeDouble c)))

theorem flat_inDouble (cs : List Char) : Flat (cs.flatMap inDouble) := by
  intro d hd
  obtain ⟨c, -, hd⟩ := List.mem_flatMap.mp hd
  rw [inDouble] at hd
  split_ifs at hd with hc
  · obtain rfl := List.mem_singleton.mp hd
    obtain ⟨-, hbreak, hmark, -⟩ := standsInDouble_iff hc
    exact ⟨hbreak, hmark⟩
  · exact (isPrintable_escapeDouble hd).flat

/-- A text as it is spelled on one line. -/
def Style.onLine : Style → List Char → List Char
  | .plain, cs | .literal, cs => cs
  | .single, cs => '\'' :: (doubleQuotes cs ++ ['\''])
  | .double, cs => '"' :: (cs.flatMap inDouble ++ ['"'])

/-! ## The choice of a style -/

/-- The scalar is read from its text when that is written plain. -/
structure ReadsPlain (s : Scalar) : Prop where
  tag : Tag.ofPlain .workflow (scalarText s) = scalarTag s
  look : (Look.of (scalarText s).toList).allowsPlain
  ne_nil : (scalarText s).toList ≠ []
  noBlock : wantsBlock s = false

/-- The style of a scalar. -/
def styleOf (isKey : Bool) (s : Scalar) : Style :=
  Style.choose isKey (Tag.ofPlain .workflow (scalarText s) == scalarTag s) (wantsBlock s)
    (scalarText s).toList

/-- The scalar can be written so that it is read back: as a text, or plain. Only double quotes spell
the line end U+0085 so that it is not read as another one. -/
structure Writable (s : Scalar) : Prop where
  stands : StandsFor (scalarTag s) (scalarText s) s
  plain : (∃ text, s = .str text) ∨ ReadsPlain s
  kept : styleOf false s ≠ .double → ∀ c ∈ (scalarText s).toList, c ≠ '\u0085'

/-- What the style of a scalar says about its text. -/
inductive Styled (isKey : Bool) (s : Scalar) : Style → Prop
  | plain : Tag.ofPlain .workflow (scalarText s) = scalarTag s →
      (Look.of (scalarText s).toList).allowsPlain →
      (scalarText s).toList ≠ [] → Styled isKey s .plain
  | single : (∃ text, s = .str text) → (Look.of (scalarText s).toList).allowsSingle →
      '\n' ∉ (scalarText s).toList →
      (isKey → (Look.of (scalarText s).toList).multiline = false) → Styled isKey s .single
  | double : (∃ text, s = .str text) → Styled isKey s .double
  | literal : (∃ text, s = .str text) → (Look.of (scalarText s).toList).allowsBlock →
      (scalarText s).toList ≠ [] → isKey = false → Styled isKey s .literal

theorem ofPlain_nil : Tag.ofPlain .workflow "" = .null := by decide

theorem styled (isKey : Bool) (h : Writable s) : Styled isKey s (styleOf isKey s) := by
  rw [styleOf, Style.choose]
  obtain ⟨text, rfl⟩ | hplain := h.plain
  · split_ifs with hblock hliteral hread hsingle
    · simp only [Bool.and_eq_true, Bool.not_eq_true', List.isEmpty_eq_false_iff] at hliteral
      exact .literal ⟨text, rfl⟩ hliteral.2 hliteral.1.2 hliteral.1.1
    · exact .double ⟨text, rfl⟩
    · simp only [Bool.and_eq_true, beq_iff_eq] at hread
      refine .plain hread.1.1 hread.1.2 fun hnil => ?_
      have htext : scalarText (.str text) = "" := String.toList_eq_nil_iff.mp hnil
      rw [htext, ofPlain_nil] at hread
      exact absurd hread.1.1 (by simp [scalarTag])
    · simp only [Bool.and_eq_true, Bool.not_eq_true', Bool.and_eq_false_iff] at hsingle
      refine .single ⟨text, rfl⟩ hsingle.1 (by simpa [wantsBlock, scalarText] using hblock)
        fun hkey => ?_
      simpa [hkey] using hsingle.2
    · exact .double ⟨text, rfl⟩
  · have hne : (scalarText s).toList.isEmpty = false := List.isEmpty_eq_false_iff.mpr hplain.ne_nil
    simp only [hplain.noBlock, hplain.tag, hplain.look, hne, Bool.false_eq_true, if_false,
      beq_self_eq_true, Bool.and_false, Bool.not_false, Bool.and_self, if_true]
    exact .plain hplain.tag hplain.look hplain.ne_nil

theorem noBreak_of_any (h : cs.any isBreak = false) : ∀ c ∈ cs, isBreak c = false := by
  intro c hc
  simpa using List.any_eq_false.mp h c hc

theorem ne_nextLine_of_noBreak (h : ∀ c ∈ cs, isBreak c = false) : ∀ c ∈ cs, c ≠ '\u0085' := by
  rintro _ hc rfl
  cases h _ hc

/-- Outside double quotes there is no line end U+0085. A key on one line has no line end at all, so
for keys nothing has to be assumed. -/
theorem Writable.ne_nextLine (h : Writable s) (isKey : Bool)
    (hstyle : styleOf isKey s ≠ .double) : ∀ c ∈ (scalarText s).toList, c ≠ '\u0085' := by
  cases isKey with
  | false => exact h.kept hstyle
  | true =>
    have hstyled := styled true h
    generalize styleOf true s = style at hstyled hstyle
    cases hstyled with
    | plain _ hlook _ => exact ne_nextLine_of_noBreak (isPlainText_of_look hlook).no_break
    | single _ _ _ hline => exact ne_nextLine_of_noBreak (noBreak_of_any (hline rfl))
    | double _ => exact absurd rfl hstyle
    | literal _ _ _ hkey => cases hkey

theorem plainStart_of_look (h : (Look.of cs).allowsPlain) : PlainStart cs := by
  simp only [Look.allowsPlain, Look.of, Bool.and_eq_true, Bool.not_eq_true',
    Bool.or_eq_false_iff] at h
  obtain ⟨-, ⟨⟨hdashes, hdots⟩, hstart⟩, -⟩ := h
  exact ⟨hstart, hdashes, hdots⟩

theorem startsWord_of_look (h : (Look.of cs).allowsPlain) (hne : cs ≠ []) :
    ∃ c ∈ cs.head?, isSpace c = false := by
  obtain ⟨c, rest, rfl⟩ := List.exists_cons_of_ne_nil hne
  simp only [Look.allowsPlain, Look.of, Bool.and_eq_true, Bool.not_eq_true',
    Bool.or_eq_false_iff] at h
  obtain ⟨⟨⟨⟨⟨⟨hfirst, -⟩, -⟩, -⟩, -⟩, -⟩, -⟩ := h
  simp only [List.head?_cons, Option.any_some, Bool.or_eq_false_iff] at hfirst
  exact ⟨c, rfl, hfirst.1⟩

theorem isSingleText_of_look (h : (Look.of cs).allowsSingle) (hfeed : '\n' ∉ cs)
    (hkept : ∀ c ∈ cs, c ≠ '\u0085') : IsSingleText cs := by
  simp only [Look.allowsSingle, Look.of, Bool.and_eq_true, Bool.not_eq_true'] at h
  obtain ⟨⟨hbreakSpace, hspaceBreak⟩, hspecial⟩ := h
  refine ⟨fun c hc => ?_, fun c hc hbreak => ⟨hbreak, ?_, hkept c hc⟩,
    noPair_of_hasPair hbreakSpace, noPair_of_hasPair hspaceBreak⟩
  · simpa using List.any_eq_false.mp hspecial c hc
  · rintro rfl
    exact hfeed hc

theorem isBlockText_of_look (h : (Look.of cs).allowsBlock) (hkept : ∀ c ∈ cs, c ≠ '\u0085') :
    IsBlockText cs := by
  simp only [Look.allowsBlock, Look.of, Bool.and_eq_true, Bool.not_eq_true'] at h
  refine ⟨fun c hc => ?_, fun c hc hbreak => ⟨hbreak, hkept c hc⟩⟩
  simpa using List.any_eq_false.mp h.2 c hc

/-! ## What is written -/

/-- No tag is written. -/
theorem writeScalar_eq (h : Writable s) (place : Place) (p : Pen) :
    writeScalar (some n) place s p =
      match styleOf (place == .key) s with
      | .plain => writePlain (n + 2) (!(place == .key)) (place == .root) (scalarText s).toList p
      | .single => writeSingle (n + 2) (!(place == .key)) (scalarText s).toList p
      | .double => writeDouble (n + 2) (!(place == .key)) (scalarText s).toList p
      | .literal => writeLiteral (n + 2) (scalarText s).toList p := by
  have hnone : (styleOf (place == .key) s == .plain || scalarTag s == .str) = true := by
    have hstyled := styled (place == .key) h
    generalize styleOf (place == .key) s = style at hstyled
    cases hstyled with
    | plain => rfl
    | single htext | double htext | literal htext =>
      obtain ⟨text, rfl⟩ := htext
      rfl
  rw [styleOf] at hnone
  rw [writeScalar, styleOf]
  simp only [hnone, if_true]
  rfl

/-- The blank in front of a value that stands behind a mark. -/
def lead (p : Pen) : List Char := if p.blank then [] else [' ']

theorem adds_open (p : Pen) (s : String) (keeps : Bool) :
    p.Adds (p.mark s true keeps) (lead p ++ s.toList) := by
  cases hblank : p.blank with
  | true =>
    have hadds : p.Adds (p.mark s true keeps) s.toList := Pen.adds_mark (by simp [hblank])
    simpa [lead, hblank] using hadds
  | false =>
    have hadds : p.Adds (p.mark s true keeps) (' ' :: s.toList) := Pen.adds_spaced hblank
    simpa [lead, hblank] using hadds

/-- What a scalar is spelled as, and how the pen stands behind it. -/
structure Spells (n : Nat) (s : Scalar) (isPlain ended : Bool) (S : List Char) (p p' : Pen) :
    Prop where
  adds : p.Adds p' (lead p ++ S)
  spelled : Spelled (n + 2) (scalarText s).toList isPlain ended S
  tag : (if isPlain then Tag.ofPlain .workflow (scalarText s) else .str) = scalarTag s
  readable : ∀ c ∈ S, isReadable c
  done : p.openEnded = false → Pen.Done ended p'

theorem done_mark (p : Pen) (q : String) : Pen.Done false (p.mark q false false) :=
  ⟨nofun, fun _ => by simp [Pen.mark], nofun⟩

/-- In quotes. -/
theorem adds_quoted {t : List Char} {q : String} {q' : Char} (hq : q.toList = [q']) {p p' : Pen}
    (h : (p.mark q true false).Adds p' t) :
    p.Adds (p'.mark q false false) (lead p ++ (q' :: (t ++ [q']))) := by
  have hclose : p'.Adds (p'.mark q false false) q.toList := Pen.adds_mark (by simp)
  have hall := (adds_open p q false).trans (h.trans hclose)
  rw [hq] at hall
  simpa using hall

theorem isReadable_quoted {t : List Char} {q : Char} (hq : isReadable q)
    (ht : ∀ c ∈ t, isReadable c) :
    ∀ c ∈ q :: (t ++ [q]), isReadable c :=
  List.forall_mem_cons.mpr ⟨hq, List.forall_mem_append.mpr ⟨ht, by simpa using hq⟩⟩

/-- The pen in front of a plain text. -/
def plainPen (p : Pen) : Pen :=
  { (if p.blank then p else p.text [' ']) with blank := false, indention := false }

theorem adds_plainPen (p : Pen) : p.Adds (plainPen p) (lead p) := by
  cases hblank : p.blank with
  | true => simp [lead, plainPen, hblank, Pen.Adds]
  | false => simpa [lead, plainPen, hblank, Pen.Adds] using Pen.adds_text p [' ']

theorem plainPen_openEnded (p : Pen) : (plainPen p).openEnded = p.openEnded := by
  cases hblank : p.blank <;> simp [plainPen, hblank, Pen.text]

theorem writePlain_eq (hne : cs ≠ []) (fold : Bool) (p : Pen) :
    writePlain level fold false cs p = writePlainRuns level fold true (runs cs) (plainPen p) := by
  have hcs : cs.isEmpty = false := List.isEmpty_eq_false_iff.mpr hne
  rw [writePlain, hcs]
  rfl

/-- The pen behind the header of a block. -/
def headed (cs : List Char) (p : Pen) : Pen :=
  let p := p.mark ("|" ++ blockHints cs) true false
  if (blockHints cs).endsWith "+" then { p with openEnded := true } else p

theorem writeLiteral_eq (p : Pen) :
    writeLiteral level cs p = writeLiteralFrom level true cs ((headed cs p).lineBreak '\n') := rfl

theorem adds_headed (cs : List Char) (p : Pen) :
    p.Adds (headed cs p) (lead p ++ '|' :: (blockHints cs).toList) := by
  have hmark := adds_open p ("|" ++ blockHints cs) false
  rw [String.toList_append] at hmark
  rw [headed]
  split_ifs
  · exact hmark
  · exact hmark

theorem isReadable_blockHints (cs : List Char) : ∀ c ∈ (blockHints cs).toList, isReadable c := by
  rw [Cursor.blockHints_eq]
  rw [← List.all_eq_true]
  cases Cursor.startsLoose cs <;> cases Cursor.chompingOf cs <;> decide

/-- **A scalar is written as it is read.** -/
theorem written_scalar (h : Writable s) (hwidth : n + 2 < lineWidth) (hplace : place ≠ .root)
    (p : Pen) :
    ∃ S isPlain ended, Spells n s isPlain ended S p (writeScalar (some n) place s p) := by
  have hroot : (place == .root) = false := by simpa using hplace
  rw [writeScalar_eq h, hroot]
  have hstyled := styled (place == .key) h
  have hkept := h.ne_nextLine (place == .key)
  generalize styleOf (place == .key) s = style at hstyled hkept
  cases hstyled with
  | plain htag hlook hne =>
    obtain ⟨t, hadds, hread, hstate, hword, -⟩ := written_plainRuns (!(place == .key))
      (splits_runs (scalarText s).toList) hwidth [] (isPlainText_of_look hlook) true
        (plainPen p) rfl
    have ht := hword (by simp) (startsWord_of_look hlook hne)
    dsimp only
    rw [writePlain_eq hne]
    refine ⟨t, true, false, (adds_plainPen p).trans hadds, .plain (plainStart_of_look hlook) ht,
      htag, hread,
      fun hopen => ⟨nofun, fun _ => hstate.indention, fun hended => ?_⟩⟩
    rw [hstate.openEnded, plainPen_openEnded, hopen] at hended
    cases hended
  | single htext hlook hfeed _ =>
    obtain ⟨text, rfl⟩ := htext
    obtain ⟨t, hadds, ht, hread⟩ := written_singleRuns (!(place == .key)) (splits_runs text.toList)
      (isSingleText_of_look hlook hfeed (hkept nofun)) hwidth true (p.mark "'" true false)
    exact ⟨'\'' :: (t ++ ['\'']), false, false, adds_quoted rfl hadds, .single ht, rfl,
      isReadable_quoted rfl hread, fun _ => done_mark _ _⟩
  | double htext =>
    obtain ⟨text, rfl⟩ := htext
    obtain ⟨t, hadds, ht, hread⟩ := written_doubleFrom (!(place == .key)) hwidth text.toList true []
      (p.mark "\"" true false)
    exact ⟨'"' :: (t ++ ['"']), false, false, adds_quoted rfl hadds, .double ht, rfl,
      isReadable_quoted rfl hread, fun _ => done_mark _ _⟩
  | literal htext hlook hne _ =>
    obtain ⟨text, rfl⟩ := htext
    dsimp only
    rw [writeLiteral_eq]
    obtain ⟨t, hwrites, ht⟩ : ∃ t, WritesBlock _ (writeLiteralFrom (n + 2) true text.toList _) t ∧
        BlockText (n + 2) text.toList t :=
      written_block (isBlockText_of_look hlook (hkept nofun)) hne
        (Pen.free_lineBreak (headed text.toList p) '\n')
    have hheader := (adds_headed text.toList p).trans
      ((Pen.adds_lineBreak _ '\n').trans hwrites.adds)
    rw [List.append_assoc] at hheader
    refine ⟨'|' :: ((blockHints text.toList).toList ++ '\n' :: t), false, true, hheader,
      .literal ht, rfl, ?_, fun _ => ⟨fun _ => hwrites.free, nofun, fun _ => rfl⟩⟩
    exact List.forall_mem_cons.mpr ⟨rfl, List.forall_mem_append.mpr
      ⟨isReadable_blockHints text.toList, List.forall_mem_cons.mpr ⟨rfl, hwrites.readable⟩⟩⟩

/-- A key in front of its colon. -/
theorem adds_key (h : Writable s) (p : Pen) :
    p.Adds (writeScalar (some n) .key s p)
    (lead p ++ (styleOf true s).onLine (scalarText s).toList) := by
  rw [writeScalar_eq h, show (Place.key == Place.key) = true from rfl,
    show (Place.key == Place.root) = false from rfl]
  have hstyled := styled true h
  generalize styleOf true s = style at hstyled
  cases hstyled with
  | plain _ _ hne =>
    dsimp only
    rw [writePlain_eq hne]
    exact (adds_plainPen p).trans (adds_plainRuns (splits_runs _) true (plainPen p))
  | single _ _ _ hline =>
    have hbreaks : ∀ c ∈ (scalarText s).toList, isBreak c = false := noBreak_of_any (hline rfl)
    exact adds_quoted rfl (adds_singleRuns (splits_runs _) hbreaks true (p.mark "'" true false))
  | double _ => exact adds_quoted rfl (adds_doubleFrom (scalarText s).toList true []
    (p.mark "\"" true false))
  | literal _ _ _ hkey => cases hkey

theorem flat_onLine (h : Writable s) (hline : (scalarText s).toList.any isBreak = false) :
    Flat ((styleOf true s).onLine (scalarText s).toList) := by
  have hordinary : (∀ c ∈ (scalarText s).toList, isOrdinary c) → Flat (scalarText s).toList := by
    intro hall c hc
    exact ⟨noBreak_of_any hline c hc, isMarkOfOrder_of_isOrdinary (hall c hc)⟩
  have hquoted : ∀ {q : Char} {t : List Char}, Flat t → Flat [q] → Flat (q :: (t ++ [q])) := by
    intro q t ht hq
    exact flat_cons.mpr ⟨hq q (by simp), flat_append.mpr ⟨ht, hq⟩⟩
  have hstyled := styled true h
  generalize styleOf true s = style at hstyled
  cases hstyled with
  | plain _ hlook _ => exact hordinary (isPlainText_of_look hlook).ordinary
  | single _ hlook hfeed _ =>
    have hkept := ne_nextLine_of_noBreak (noBreak_of_any hline)
    have hflat := hordinary (isSingleText_of_look hlook hfeed hkept).ordinary
    exact hquoted (fun c hc => hflat c (mem_doubleQuotes hc))
      (by simp [Flat, isBreak, isMarkOfOrder])
  | double _ => exact hquoted (flat_inDouble _) (by simp [Flat, isBreak, isMarkOfOrder])
  | literal _ _ _ hkey => cases hkey

/-- **A key in front of its colon is written as it is read**, on one line. -/
theorem written_key (h : Writable s) (hwidth : n + 2 < lineWidth)
    (hline : (scalarText s).toList.any isBreak = false)
    (p : Pen) : ∃ S isPlain, Spells n s isPlain false S p (writeScalar (some n) .key s p) ∧ Flat S ∧
      S = (styleOf true s).onLine (scalarText s).toList := by
  obtain ⟨S, isPlain, ended, hspells⟩ := written_scalar h hwidth (nofun : Place.key ≠ .root) p
  have hS : S = (styleOf true s).onLine (scalarText s).toList :=
    List.append_cancel_left (hspells.adds.unique (adds_key h p))
  have hflat : Flat S := by
    rw [hS]
    exact flat_onLine h hline
  cases ended with
  | false => exact ⟨S, isPlain, hspells, hflat, hS⟩
  | true =>
    obtain ⟨front, b, rfl, hb⟩ := hspells.spelled.ends
    rw [(hflat b (by simp)).1] at hb
    cases hb

end Yaml

end StepLoom
