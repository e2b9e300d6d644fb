import StepLoom.Proofs.Number.Digits
import StepLoom.Proofs.Yaml.Between
import StepLoom.Yaml.Writer

/-!
# Quoted scalars are read back

`Singly` and `Doubly` are the spellings of a text between single and between double quotes: which
characters stand for themselves, what is doubled or escaped, and where a line may end. The reader
takes each of them back to the text (`single_reads`, `double_reads`).
-/

namespace StepLoom

namespace Yaml

/-- Neither a blank nor a line end stands here. -/
def Solid (rest : List Char) : Prop := ∃ c more, rest = c :: more ∧ isBlankOrBreak c = false

theorem Solid.append {t : List Char} {q : Char} (rest : List Char) (h : Solid (t ++ [q])) :
    Solid (t ++ q :: rest) := by
  obtain ⟨c, more, heq, hc⟩ := h
  exact ⟨c, more ++ rest, by simpa using congrArg (· ++ rest) heq, hc⟩

/-- The line ends that are kept in a quoted text: all but those that are read as a line feed. -/
def IsSeparator (c : Char) : Prop := isBreak c ∧ c ≠ '\n' ∧ c ≠ '\u0085'

/-- The spellings of a text between single quotes whose lines are indented by `level`. -/
inductive Singly (level : Nat) : List Char → List Char → Prop
  | nil : Singly level [] []
  | char {c : Char} {cs t : List Char} : isBlankOrBreak c = false → c ≠ '\'' → Singly level cs t →
      Singly level (c :: cs) (c :: t)
  | quote {cs t : List Char} : Singly level cs t → Singly level ('\'' :: cs) ('\'' :: '\'' :: t)
  | spaces {cs t : List Char} (n : Nat) : Solid (t ++ ['\'']) → Singly level cs t →
      Singly level (List.replicate (n + 1) ' ' ++ cs) (List.replicate (n + 1) ' ' ++ t)
  | folded {cs t : List Char} : Solid (t ++ ['\'']) → Singly level cs t →
      Singly level (' ' :: cs) ('\n' :: List.replicate level ' ' ++ t)
  | breaks {bs cs t : List Char} : bs ≠ [] → (∀ b ∈ bs, IsSeparator b) → Solid (t ++ ['\'']) →
      Singly level cs t → Singly level (bs ++ cs) (bs ++ List.replicate level ' ' ++ t)

/-- The spellings of a text between double quotes whose lines are indented by `level`. -/
inductive Doubly (level : Nat) : List Char → List Char → Prop
  | nil : Doubly level [] []
  | char {c : Char} {cs t : List Char} : isBlankOrBreak c = false → c ≠ '"' → c ≠ '\\' →
      Doubly level cs t → Doubly level (c :: cs) (c :: t)
  | escape {c : Char} {cs t : List Char} : Doubly level cs t →
      Doubly level (c :: cs) (escapeDouble c ++ t)
  | blank {cs t : List Char} : Doubly level cs t → Doubly level (' ' :: cs) ('\\' :: ' ' :: t)
  | spaces {cs t : List Char} (n : Nat) : Solid (t ++ ['"']) → Doubly level cs t →
      Doubly level (List.replicate (n + 1) ' ' ++ cs) (List.replicate (n + 1) ' ' ++ t)
  | folded {cs t : List Char} : Solid (t ++ ['"']) → Doubly level cs t →
      Doubly level cs ('\\' :: '\n' :: List.replicate level ' ' ++ t)

namespace Cursor

variable {before rest cs t bs : List Char} {c : Char} {level n fuel : Nat}

/-! ## Gaps -/

theorem isSpaceOrTab_of_solid (h : isBlankOrBreak c = false) : isSpaceOrTab c = false := by
  simp only [isBlankOrBreak, Bool.or_eq_false_iff] at h
  simp [isSpaceOrTab, h.1.1.1.2, h.1.1.2]

theorem isBreak_of_solid (h : isBlankOrBreak c = false) : isBreak c = false := by
  simp only [isBlankOrBreak, Bool.or_eq_false_iff] at h
  exact h.2

theorem isSpaceOrTab_of_isBreak (h : isBreak c) : isSpaceOrTab c = false := by
  simp only [isBreak, Bool.or_eq_true, beq_iff_eq] at h
  obtain ((rfl | rfl) | rfl) | rfl := h <;> rfl

theorem isSpaceOrTab_blanks (n : Nat) : ∀ c ∈ List.replicate n ' ', isSpaceOrTab c := by
  intro c hc
  obtain rfl := List.eq_of_mem_replicate hc
  rfl

theorem quotedGap_blanks (before : List Char) (n : Nat) (hrest : Solid rest) :
    quotedGap (between before (List.replicate n ' ' ++ rest)) =
      .ok (List.replicate n ' ', between (before ++ List.replicate n ' ') rest) := by
  obtain ⟨c, more, rfl, hc⟩ := hrest
  rw [quotedGap, word_between (isSpaceOrTab_blanks n) (by simpa using isSpaceOrTab_of_solid hc)]
  simp [isBreak_of_solid hc]

/-- No document begins or ends where a quoted text goes on in another line. -/
theorem startsMark_line (before rest : List Char) (hlevel : 0 < level) (hbs : ∀ b ∈ bs, isBreak b) :
    (between before (bs ++ (List.replicate level ' ' ++ rest))).isAtDocumentMark = false := by
  obtain ⟨level, rfl⟩ : ∃ m, level = m + 1 := ⟨level - 1, by omega⟩
  cases bs with
  | nil => rfl
  | cons b more =>
    have hb := hbs b (by simp)
    simp only [isBreak, Bool.or_eq_true, beq_iff_eq] at hb
    obtain ((rfl | rfl) | rfl) | rfl := hb <;> rfl

theorem quotedBreaks_reads (before : List Char) (hlevel : 0 < level)
    (hbs : ∀ b ∈ bs, isBreak b ∧ b ≠ '\u0085') (hrest : Solid rest) (hfuel : bs.length < fuel) :
    quotedBreaks fuel (between before (bs ++ (List.replicate level ' ' ++ rest))) =
      .ok (bs, between (before ++ bs ++ List.replicate level ' ') rest) := by
  induction bs generalizing before fuel with
  | nil =>
    obtain ⟨fuel, rfl⟩ : ∃ m, fuel = m + 1 := ⟨fuel - 1, by omega⟩
    obtain ⟨c, more, rfl, hc⟩ := hrest
    have hmark := startsMark_line before (c :: more) hlevel (List.forall_mem_nil _)
    rw [List.nil_append] at hmark ⊢
    rw [quotedBreaks, hmark, if_neg (by decide), skipWhile_between (isSpaceOrTab_blanks level)
      (by simpa using isSpaceOrTab_of_solid hc)]
    simp only [between_rest, isBreak_of_solid hc, Bool.false_eq_true, if_false, List.append_nil]
    rfl
  | cons b bs ih =>
    obtain ⟨fuel, rfl⟩ : ∃ m, fuel = m + 1 := ⟨fuel - 1, by omega⟩
    obtain ⟨hb, hnext⟩ := hbs b (by simp)
    rw [quotedBreaks, startsMark_line _ _ hlevel (fun d hd => (hbs d hd).1), if_neg (by decide),
      skipWhile_of_not (by simp [isSpaceOrTab_of_isBreak hb])]
    simp only [between_rest, List.cons_append, step_between, hb, if_true, hnext, if_false]
    rw [ih _ (fun d hd => hbs d (List.mem_cons_of_mem b hd)) (by simpa using hfuel)]
    simp

/-- The line ends in a gap are folded. -/
theorem quotedGap_breaks {b : Char} (before : List Char) (hlevel : 0 < level)
    (hbs : ∀ d ∈ b :: bs, isBreak d ∧ d ≠ '\u0085') (hrest : Solid rest) :
    quotedGap (between before (b :: bs ++ (List.replicate level ' ' ++ rest))) =
      .ok (fold b bs, between (before ++ b :: bs ++ List.replicate level ' ') rest) := by
  have hb := (hbs b (by simp)).1
  have hroom : bs.length <
      (between before (b :: (bs ++ (List.replicate level ' ' ++ rest)))).room := by
    rw [between_room, List.length_cons, List.length_append]
    omega
  have hbreaks := quotedBreaks_reads (before ++ [b]) hlevel
    (fun d hd => hbs d (List.mem_cons_of_mem b hd)) hrest hroom
  rw [quotedGap, word_of_not (by simp [isSpaceOrTab_of_isBreak hb])]
  simp only [between_rest, List.cons_append, step_between, hb, if_true, hbreaks]
  simp only [List.append_assoc, List.cons_append]
  rfl

theorem quotedGap_line (before : List Char) (hlevel : 0 < level) (hrest : Solid rest) :
    quotedGap (between before ('\n' :: List.replicate level ' ' ++ rest)) =
      .ok ([' '], between (before ++ '\n' :: List.replicate level ' ') rest) := by
  have hfeed : ∀ d ∈ ['\n'], isBreak d ∧ d ≠ '\u0085' :=
    List.forall_mem_singleton.mpr (by decide)
  simpa [fold] using quotedGap_breaks before hlevel hfeed hrest

theorem quotedGap_separators (before : List Char) (hlevel : 0 < level) (hne : bs ≠ [])
    (hbs : ∀ b ∈ bs, IsSeparator b) (hrest : Solid rest) :
    quotedGap (between before (bs ++ (List.replicate level ' ' ++ rest))) =
      .ok (bs, between (before ++ bs ++ List.replicate level ' ') rest) := by
  obtain ⟨b, bs, rfl⟩ := List.exists_cons_of_ne_nil hne
  obtain ⟨-, hfeed, hnext⟩ := hbs b (by simp)
  rw [quotedGap_breaks before hlevel (fun d hd => ⟨(hbs d hd).1, (hbs d hd).2.2⟩) hrest]
  simp [fold, hfeed, hnext]

/-! ## Single quotes -/

section Steps

variable {isDouble : Bool} {gap tail : List Char} {d e : Cursor}

theorem quoted_gap (hc : isBlankOrBreak c)
    (hgap : quotedGap (between before (c :: rest)) = .ok (gap, d))
    (htail : quoted isDouble fuel d = .ok (tail, e)) :
    quoted isDouble (fuel + 1) (between before (c :: rest)) = .ok (gap ++ tail, e) := by
  rw [quoted]
  simp only [between_rest, hc, if_true, hgap]
  change (quoted isDouble fuel d >>= fun x => pure (gap ++ x.1, x.2)) = _
  rw [htail]
  rfl

theorem quoted_char {quote : Char} (heq : (if isDouble then '"' else '\'') = quote)
    (hc : isBlankOrBreak c = false) (hquote : c ≠ quote) (hescape : isDouble → c ≠ '\\')
    (htail : quoted isDouble fuel (between (before ++ [c]) rest) = .ok (tail, e)) :
    quoted isDouble (fuel + 1) (between before (c :: rest)) = .ok (c :: tail, e) := by
  rw [quoted]
  simp only [between_rest, hc, Bool.false_eq_true, if_false, step_between, htail]
  subst heq
  cases isDouble with
  | true => simp_all [bind, Except.bind, pure, Except.pure]
  | false => simp_all [bind, Except.bind, pure, Except.pure]

end Steps

/-- **A text is read back from its spellings between single quotes.** -/
theorem single_reads (before : List Char) (h : Singly level cs t) (hlevel : 0 < level)
    (hrest : rest.head? ≠ some '\'') (hfuel : t.length < fuel) :
    quoted false fuel (between before (t ++ '\'' :: rest)) =
      .ok (cs, between (before ++ t ++ ['\'']) rest) := by
  induction h generalizing before fuel with
  | nil =>
    obtain ⟨fuel, rfl⟩ : ∃ m, fuel = m + 1 := ⟨fuel - 1, by omega⟩
    have hblank : isBlankOrBreak '\'' = false := by decide
    rw [List.nil_append, quoted]
    simp [hblank, hrest]
  | @char c cs t hc hquote _ ih =>
    obtain ⟨fuel, rfl⟩ : ∃ m, fuel = m + 1 := ⟨fuel - 1, by omega⟩
    have htail := @ih fuel (before ++ [c]) (by simpa using hfuel)
    simpa using quoted_char (by rfl) hc hquote (by simp) htail
  | @quote cs t _ ih =>
    obtain ⟨fuel, rfl⟩ : ∃ m, fuel = m + 1 := ⟨fuel - 1, by omega⟩
    have htail := @ih fuel (before ++ ['\'', '\'']) (by simp at hfuel; omega)
    have hblank : isBlankOrBreak '\'' = false := by decide
    have htwo : (between before ('\'' :: '\'' :: (t ++ '\'' :: rest))).skip 2 =
        between (before ++ ['\'', '\'']) (t ++ '\'' :: rest) := by
      simp [skip]
    simp only [List.cons_append]
    rw [quoted]
    simp only [between_rest, hblank, Bool.false_eq_true, if_false, htwo, htail]
    simp [bind, Except.bind, pure, Except.pure]
  | @spaces cs t n hsolid _ ih =>
    obtain ⟨fuel, rfl⟩ : ∃ m, fuel = m + 1 := ⟨fuel - 1, by omega⟩
    have htail := @ih fuel (before ++ List.replicate (n + 1) ' ')
      (by simp at hfuel; omega)
    have hgap := quotedGap_blanks before (n + 1) (hsolid.append rest)
    simpa [List.replicate_succ] using quoted_gap (by decide) hgap htail
  | @folded cs t hsolid _ ih =>
    obtain ⟨fuel, rfl⟩ : ∃ m, fuel = m + 1 := ⟨fuel - 1, by omega⟩
    have htail := @ih fuel (before ++ '\n' :: List.replicate level ' ')
      (by simp at hfuel; omega)
    have hgap := quotedGap_line before hlevel (hsolid.append rest)
    simpa using quoted_gap (by decide) hgap htail
  | @breaks bs cs t hne hbs hsolid _ ih =>
    obtain ⟨fuel, rfl⟩ : ∃ m, fuel = m + 1 := ⟨fuel - 1, by omega⟩
    have hpos := List.length_pos_iff.mpr hne
    have htail := @ih fuel (before ++ bs ++ List.replicate level ' ')
      (by simp at hfuel; omega)
    have hgap := quotedGap_separators before hlevel hne hbs (hsolid.append rest)
    obtain ⟨b, bs, rfl⟩ := List.exists_cons_of_ne_nil hne
    have hb : isBlankOrBreak b := by simp [isBlankOrBreak, (hbs b (by simp)).1]
    simpa using quoted_gap hb hgap htail

/-! ## Escapes -/

theorem digitIn_upper : ∀ d < 16, digitIn? 16 d.digitChar.toUpper = some d := by decide

theorem length_upperHex {width : Nat} (hpos : 0 < width) (hn : n < 16 ^ width) :
    (upperHex width n).length = width := by
  rw [upperHex, List.length_map, length_hexDigits hpos hn]

/-- The digits of an escape give the character. -/
theorem numericEscape_reads {width : Nat} (before rest : List Char) (hpos : 0 < width)
    (hn : n < 16 ^ width) (hbound : n < 0x110000) :
    numericEscape width (between before (upperHex width n ++ rest)) =
      .ok ([Text.charOf n], between (before ++ upperHex width n) rest) := by
  have hlength := length_upperHex hpos hn
  have hdigits : (upperHex width n).any (fun ch => (digitIn? 16 ch).isNone) = false := by
    rw [List.any_eq_false]
    intro ch hch
    obtain ⟨d, hd, rfl⟩ := List.mem_map.mp hch
    obtain ⟨d, hlt, rfl⟩ := exists_of_mem_hexDigits hd
    simp [digitIn_upper d hlt]
  have hvalue : (upperHex width n).foldl (fun m ch => m * 16 + (digitIn? 16 ch).getD 0) 0 = n := by
    rw [upperHex, List.foldl_map]
    exact foldl_hexDigits fun d hd => by rw [digitIn_upper d hd, Option.getD_some]
  rw [numericEscape]
  simp only [between_rest, List.take_left' hlength, hlength, hdigits, hvalue, Nat.lt_irrefl,
    decide_false, Bool.or_false, Bool.false_eq_true, if_false, skip_between hlength]
  rw [if_neg (by omega)]

theorem toNat_valid (c : Char) : c.toNat < 0xD800 ∨ 0xDFFF < c.toNat ∧ c.toNat < 0x110000 := c.valid

theorem charOf_codeOf (c : Char) : Text.charOf (Text.codeOf c) = c := by
  have hvalid := toNat_valid c
  unfold Text.charOf Text.codeOf
  by_cases h : Text.isHalf (c.toNat - Text.halfOffset)
  · have hle := of_decide_eq_true h
    have hsum : c.toNat - Text.halfOffset + Text.halfOffset = c.toNat := by omega
    rw [if_pos h, if_pos h, hsum, Char.ofNat_toNat]
  · have hnot : Text.isHalf c.toNat = false := by
      rw [Text.isHalf, decide_eq_false_iff_not]
      omega
    rw [if_neg h, hnot, if_neg (by decide), Char.ofNat_toNat]

theorem codeOf_lt (c : Char) : Text.codeOf c < 0x110000 := by
  have hvalid := toNat_valid c
  unfold Text.codeOf
  split <;> omega

theorem letterEscapes_known : ∀ p ∈ letterEscapes,
    escapeLetters.find? (·.1 == p.2) = some (p.2, p.1) ∧ Text.isHalf p.1 = false := by
  decide

theorem escape_letter {letter : Char} (before rest : List Char)
    (hknown : escapeLetters.find? (·.1 == letter) = some (letter, n)) :
    escape (between before (letter :: rest)) =
      .ok ([Char.ofNat n], between (before ++ [letter]) rest) := by
  rw [escape]
  simp only [between_rest, hknown, step_between]

theorem escape_numeric {letter : Char} {width : Nat} (before rest : List Char)
    (hletter : escapeLetters.find? (·.1 == letter) = none)
    (hwidth : escapeWidths.find? (·.1 == letter) = some (letter, width)) (hpos : 0 < width)
    (hn : n < 16 ^ width) (hbound : n < 0x110000) :
    escape (between before (letter :: upperHex width n ++ rest)) =
      .ok ([Text.charOf n], between (before ++ letter :: upperHex width n) rest) := by
  have hread := numericEscape_reads (before ++ [letter]) rest hpos hn hbound
  rw [escape]
  simp only [List.cons_append, between_rest, hletter, hwidth, step_between, hread,
    List.append_assoc, List.nil_append]

/-- The part of an escape behind its backslash. -/
def escapeBody (c : Char) : List Char := (escapeDouble c).tail

theorem escapeDouble_eq (c : Char) : escapeDouble c = '\\' :: escapeBody c := by
  rw [escapeBody, escapeDouble, List.tail_cons]

/-- **An escaped character is read back.** -/
theorem escape_reads (before rest : List Char) (c : Char) :
    escape (between before (escapeBody c ++ rest)) =
      .ok ([c], between (before ++ escapeBody c) rest) := by
  have hbound := codeOf_lt c
  have hchar := charOf_codeOf c
  unfold escapeBody escapeDouble
  generalize Text.codeOf c = n at hbound hchar ⊢
  subst hchar
  dsimp only
  rw [List.tail_cons]
  cases hfind : letterEscapes.find? (·.1 == n) with
  | some p =>
    obtain ⟨hknown, hhalf⟩ := letterEscapes_known p (List.mem_of_find?_eq_some hfind)
    obtain rfl : p.1 = n := by simpa using List.find?_some hfind
    dsimp only
    rw [Text.charOf, hhalf, if_neg Bool.false_ne_true]
    exact escape_letter before rest hknown
  | none =>
    dsimp only
    by_cases htwo : n < 256
    · rw [if_pos htwo]
      exact escape_numeric before rest (by decide) (by decide) (by decide) (by simpa using htwo)
        hbound
    · by_cases hfour : n < 65536
      · rw [if_neg htwo, if_pos hfour]
        exact escape_numeric before rest (by decide) (by decide) (by decide) (by simpa using hfour)
          hbound
      · rw [if_neg htwo, if_neg hfour]
        exact escape_numeric before rest (by decide) (by decide) (by decide) (by simp; omega) hbound

/-- A line end behind a backslash counts nothing. -/
theorem escape_line (before : List Char) (hlevel : 0 < level) (hrest : Solid rest) :
    escape (between before ('\n' :: List.replicate level ' ' ++ rest)) =
      .ok ([], between (before ++ '\n' :: List.replicate level ' ') rest) := by
  have hroom : 0 < (between before ('\n' :: List.replicate level ' ' ++ rest)).room := by simp
  have hbreaks := quotedBreaks_reads (before ++ ['\n']) hlevel (List.forall_mem_nil _) hrest hroom
  have hletter : escapeLetters.find? (·.1 == '\n') = none := by decide
  have hwidth : escapeWidths.find? (·.1 == '\n') = none := by decide
  rw [escape]
  simp only [List.cons_append, between_rest, hletter, hwidth, step_between] at hbreaks ⊢
  rw [if_pos (by decide)]
  simpa using hbreaks

/-! ## Double quotes -/

theorem quoted_escape {text tail : List Char} {d e : Cursor}
    (hescape : escape (between (before ++ ['\\']) rest) = .ok (text, d))
    (htail : quoted true fuel d = .ok (tail, e)) :
    quoted true (fuel + 1) (between before ('\\' :: rest)) = .ok (text ++ tail, e) := by
  have hblank : isBlankOrBreak '\\' = false := by decide
  rw [quoted]
  simp only [between_rest, hblank, Bool.false_eq_true, if_false, step_between, hescape]
  simp [bind, Except.bind, htail, pure, Except.pure]

theorem exists_escape (c : Char) : ∃ body, escapeDouble c = '\\' :: body ∧
    ∀ before rest, escape (between before (body ++ rest)) =
      .ok ([c], between (before ++ body) rest) :=
  ⟨escapeBody c, escapeDouble_eq c, fun before rest => escape_reads before rest c⟩

theorem quoted_escapeDouble {tail : List Char} {e : Cursor} (c : Char)
    (htail : quoted true fuel (between (before ++ escapeDouble c) rest) = .ok (tail, e)) :
    quoted true (fuel + 1) (between before (escapeDouble c ++ rest)) = .ok (c :: tail, e) := by
  obtain ⟨body, hbody, hread⟩ := exists_escape c
  rw [hbody] at htail ⊢
  have hread := hread (before ++ ['\\']) rest
  rw [List.append_assoc, List.singleton_append] at hread
  exact quoted_escape hread htail

theorem length_escapeDouble_pos (c : Char) : 0 < (escapeDouble c).length := by
  obtain ⟨body, hbody, -⟩ := exists_escape c
  rw [hbody, List.length_cons]
  exact Nat.succ_pos _

/-- **A text is read back from its spellings between double quotes.** -/
theorem double_reads (before rest : List Char) (h : Doubly level cs t) (hlevel : 0 < level)
    (hfuel : t.length < fuel) :
    quoted true fuel (between before (t ++ '"' :: rest)) =
      .ok (cs, between (before ++ t ++ ['"']) rest) := by
  induction h generalizing before fuel with
  | nil =>
    obtain ⟨fuel, rfl⟩ : ∃ m, fuel = m + 1 := ⟨fuel - 1, by omega⟩
    have hblank : isBlankOrBreak '"' = false := by decide
    rw [List.nil_append, quoted]
    simp [hblank]
  | @char c cs t hc hquote hescape _ ih =>
    obtain ⟨fuel, rfl⟩ : ∃ m, fuel = m + 1 := ⟨fuel - 1, by omega⟩
    have htail := @ih fuel (before ++ [c]) (by simpa using hfuel)
    simpa using quoted_char (by rfl) hc hquote (fun _ => hescape) htail
  | @escape c cs t _ ih =>
    obtain ⟨fuel, rfl⟩ : ∃ m, fuel = m + 1 := ⟨fuel - 1, by omega⟩
    have hpos := length_escapeDouble_pos c
    have htail := @ih fuel (before ++ escapeDouble c) (by rw [List.length_append] at hfuel; omega)
    rw [List.append_assoc, quoted_escapeDouble c htail, List.append_assoc before]
  | @blank cs t _ ih =>
    obtain ⟨fuel, rfl⟩ : ∃ m, fuel = m + 1 := ⟨fuel - 1, by omega⟩
    have hknown : escapeLetters.find? (·.1 == ' ') = some (' ', 32) := by decide
    have htail := @ih fuel (before ++ ['\\'] ++ [' ']) (by simp at hfuel; omega)
    simpa using quoted_escape (escape_letter _ _ hknown) htail
  | @spaces cs t n hsolid _ ih =>
    obtain ⟨fuel, rfl⟩ : ∃ m, fuel = m + 1 := ⟨fuel - 1, by omega⟩
    have htail := @ih fuel (before ++ List.replicate (n + 1) ' ') (by simp at hfuel; omega)
    have hgap := quotedGap_blanks before (n + 1) (hsolid.append rest)
    simpa [List.replicate_succ] using quoted_gap (by decide) hgap htail
  | @folded cs t hsolid _ ih =>
    obtain ⟨fuel, rfl⟩ : ∃ m, fuel = m + 1 := ⟨fuel - 1, by omega⟩
    have htail := @ih fuel (before ++ ['\\'] ++ '\n' :: List.replicate level ' ')
      (by simp at hfuel; omega)
    simpa using quoted_escape (escape_line _ hlevel (hsolid.append rest)) htail

end Cursor

end Yaml

end StepLoom
