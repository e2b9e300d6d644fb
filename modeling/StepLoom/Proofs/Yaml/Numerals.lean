import StepLoom.Proofs.Data
import StepLoom.Proofs.Number.Shortest
import StepLoom.Proofs.Yaml.WrittenScalar
import StepLoom.Value.Display

/-!
# Numbers are read back from their texts

A number is written plain. Its text is one that starts as a number does and holds nothing but the
characters of numbers (`IsNumeral`), so no style but plain is needed, and it is of the kind of the
number and is read as the number (`readsPlain_int`, `readsPlain_float`).
-/

namespace StepLoom

namespace Yaml

variable {c d : Char} {cs rest ds : List Char} {n : Nat} {e : Int}

/-- The text of a number: a digit, perhaps behind a minus, and more characters of numbers. -/
structure IsNumeral (cs : List Char) : Prop where
  chars : ∀ c ∈ cs, isNumeralChar c
  starts : ∃ d rest, d.isDigit ∧ (cs = d :: rest ∨ cs = '-' :: d :: rest)

/-! ## The look -/

theorem isOrdinary_of_isNumeralChar (h : isNumeralChar c) : isOrdinary c := by
  refine isNumeralChar_cases (P := fun c => isOrdinary c = true) h (fun c hlow hhigh => ?_) rfl rfl
    rfl rfl
  simp only [isOrdinary, Bool.or_eq_true, decide_eq_true_eq]
  omega

theorem isBlankOrBreak_of_isNumeralChar (h : isNumeralChar c) : isBlankOrBreak c = false := by
  refine isNumeralChar_cases (P := fun c => isBlankOrBreak c = false) h (fun c hlow hhigh => ?_) rfl
    rfl rfl rfl
  simp only [isBlankOrBreak, isBreak, Bool.or_eq_false_iff, beq_eq_false_iff_ne]
  refine ⟨⟨⟨⟨?_, ?_⟩, ?_⟩, ?_⟩, ⟨⟨?_, ?_⟩, ?_⟩, ?_⟩ <;> rintro rfl
  all_goals first | exact absurd hlow (by decide) | exact absurd hhigh (by decide)

theorem isBreak_of_isNumeralChar (h : isNumeralChar c) : isBreak c = false := by
  have hblank := isBlankOrBreak_of_isNumeralChar h
  rw [isBlankOrBreak, Bool.or_eq_false_iff] at hblank
  exact hblank.2

theorem isSpace_of_isNumeralChar (h : isNumeralChar c) : isSpace c = false :=
  beq_eq_false_iff_ne.mpr (ne_of_isNumeralChar h rfl)

theorem hasPair_eq_false {p q : Char → Bool} (h : ∀ c ∈ cs, p c = false) :
    hasPair p q cs = false := by
  induction cs with
  | nil => rfl
  | cons c cs ih =>
    cases cs with
    | nil => rfl
    | cons d rest =>
      rw [hasPair, h c (by simp), ih fun c hc => h c (List.mem_cons_of_mem _ hc)]
      rfl

theorem holdsIndicator_eq_false (h : ∀ c ∈ cs, isNumeralChar c) (previous : Char) :
    holdsIndicator previous cs = false := by
  induction cs generalizing previous with
  | nil => rfl
  | cons c rest ih =>
    have hc := h c (by simp)
    have hcolon : (c == ':') = false := beq_eq_false_iff_ne.mpr (ne_of_isNumeralChar hc rfl)
    have hsharp : (c == '#') = false := beq_eq_false_iff_ne.mpr (ne_of_isNumeralChar hc rfl)
    simp only [holdsIndicator, ih fun c hc => h c (List.mem_cons_of_mem _ hc), hcolon, hsharp,
      Bool.false_and, Bool.or_false]

theorem leadingIndicators_of_isDigit (h : c.isDigit) : leadingIndicators.contains c = false := by
  rw [List.contains_eq_mem, decide_eq_false_iff_not]
  intro hmem
  have hnone : ∀ d ∈ leadingIndicators, d.isDigit = false := by simp [leadingIndicators]
  rw [hnone c hmem] at h
  cases h

namespace IsNumeral

theorem ne_nil (h : IsNumeral cs) : cs ≠ [] := by
  obtain ⟨d, rest, -, rfl | rfl⟩ := h.starts <;> exact List.cons_ne_nil _ _

/-- No indicator starts the text: a minus that does is followed by a digit. -/
theorem startsAsIndicator_eq (h : IsNumeral cs) : startsAsIndicator cs = false ∧
    ['-', '-', '-'].isPrefixOf cs = false ∧ ['.', '.', '.'].isPrefixOf cs = false := by
  obtain ⟨d, rest, hd, rfl | rfl⟩ := h.starts
  · have hminus : ('-' == d) = false := beq_eq_false_iff_ne.mpr (ne_of_isDigit hd rfl).symm
    have hpoint : ('.' == d) = false := beq_eq_false_iff_ne.mpr (ne_of_isDigit hd rfl).symm
    have hask : (d == '?') = false := beq_eq_false_iff_ne.mpr (ne_of_isDigit hd rfl)
    have hcolon : (d == ':') = false := beq_eq_false_iff_ne.mpr (ne_of_isDigit hd rfl)
    have hdash : (d == '-') = false := beq_eq_false_iff_ne.mpr (ne_of_isDigit hd rfl)
    refine ⟨?_, ?_, ?_⟩
    · simp only [startsAsIndicator, leadingIndicators_of_isDigit hd, hask, hcolon, hdash,
        Bool.or_false, Bool.false_and]
    · rw [List.isPrefixOf, hminus, Bool.false_and]
    · rw [List.isPrefixOf, hpoint, Bool.false_and]
  · have hminus : ('-' == d) = false := beq_eq_false_iff_ne.mpr (ne_of_isDigit hd rfl).symm
    refine ⟨?_, ?_, rfl⟩
    · rw [startsAsIndicator]
      simp only [isBlankOrBreak_of_isNumeralChar (isNumeralChar_of_isDigit hd), Bool.and_false,
        Bool.or_false]
      rfl
    · rw [List.isPrefixOf, List.isPrefixOf, hminus, Bool.false_and, Bool.and_false]

theorem allowsPlain (h : IsNumeral cs) : (Look.of cs).allowsPlain := by
  have hbreak : ∀ c ∈ cs, isBreak c = false := fun c hc => isBreak_of_isNumeralChar (h.chars c hc)
  have hspace : ∀ c ∈ cs, isSpace c = false := fun c hc => isSpace_of_isNumeralChar (h.chars c hc)
  have hloose : ∀ o : Option Char, (∀ c ∈ o, c ∈ cs) →
      o.any (fun c => isSpace c || isBreak c) = false := by
    intro o ho
    cases o with
    | none => rfl
    | some c => rw [Option.any_some, hspace c (ho c rfl), hbreak c (ho c rfl)]; rfl
  have hhead := hloose cs.head? fun c hc => List.mem_of_mem_head? hc
  have hlast := hloose cs.getLast? fun c hc => List.mem_of_getLast? hc
  have hspecial : cs.any (fun c => !isOrdinary c) = false := by
    rw [List.any_eq_false]
    intro c hc
    rw [isOrdinary_of_isNumeralChar (h.chars c hc)]
    decide
  have hmultiline : cs.any isBreak = false := by
    rw [List.any_eq_false]
    intro c hc
    rw [hbreak c hc]
    decide
  obtain ⟨hstart, hdashes, hpoints⟩ := h.startsAsIndicator_eq
  have hholds : holdsIndicator (cs.headD ' ') (cs.drop 1) = false :=
    holdsIndicator_eq_false (fun c hc => h.chars c (List.mem_of_mem_drop hc)) _
  simp only [Look.allowsPlain, Look.of, hhead, hlast, hspecial, hmultiline, hstart, hdashes,
    hpoints, hholds, hasPair_eq_false hbreak, hasPair_eq_false hspace]
  rfl

/-- No word starts as a number does. -/
theorem contains_eq_false {s : String} (h : IsNumeral s.toList) {words : List String}
    (hwords : ∀ w ∈ words, w.toList.head?.any (fun c => c == '-' || c.isDigit) = false) :
    words.contains s = false := by
  rw [List.contains_eq_mem, decide_eq_false_iff_not]
  intro hmem
  have hword := hwords s hmem
  obtain ⟨d, rest, hd, hs | hs⟩ := h.starts
  · rw [hs, List.head?_cons, Option.any_some, hd, Bool.or_true] at hword
    cases hword
  · rw [hs] at hword
    cases hword

/-- Only numbers start as numbers do. -/
theorem ofPlain_eq {s : String} (h : IsNumeral s.toList) {tag : Tag}
    (hkind : isFloat s.toList ∧ tag = .float ∨
      isFloat s.toList = false ∧ isInteger s.toList ∧ tag = .int) :
    Tag.ofPlain .workflow s = tag := by
  have hnull : isNullWord s = false := h.contains_eq_false (by decide)
  have hbool : isBoolWord .workflow s = false := by
    rw [isBoolWord, h.contains_eq_false (by decide)]
    rfl
  have hbreak : s ≠ "\n" := by
    rintro rfl
    have := h.chars '\n' (by decide)
    cases this
  have hfinal : dropFinalBreak s.toList = s.toList := by
    rw [dropFinalBreak, if_neg]
    intro hlast
    have := h.chars '\n' (List.mem_of_getLast? hlast)
    cases this
  rw [Tag.ofPlain, if_neg hbreak, hfinal, String.ofList_toList, Tag.ofWord]
  simp only [hnull, hbool, Bool.false_eq_true, if_false]
  obtain ⟨hfloat, rfl⟩ | ⟨hfloat, hint, rfl⟩ := hkind
  · rw [if_pos hfloat]
  · rw [hfloat, hint]
    rfl

end IsNumeral

/-! ## Integers -/

/-- Only zero starts with a zero. -/
theorem exists_toDigits (hn : 0 < n) :
    ∃ c rest, Nat.toDigits 10 n = c :: rest ∧ c.isDigit ∧ c ≠ '0' := by
  induction n using Nat.strongRecOn with
  | ind n ih =>
    rw [Nat.toDigits_eq_if (by decide)]
    split_ifs with hlt
    · refine ⟨n.digitChar, [], rfl, (digitChar_spec n hlt).1, ?_⟩
      have hnonzero : ∀ d < 10, 0 < d → d.digitChar ≠ '0' := by decide
      exact hnonzero n hlt hn
    · obtain ⟨c, rest, heq, hc, hzero⟩ := ih (n / 10) (Nat.div_lt_self hn (by decide)) (by omega)
      exact ⟨c, rest ++ [(n % 10).digitChar], by rw [heq]; rfl, hc, hzero⟩

theorem exists_cons_toDigits (n : Nat) : ∃ c rest, Nat.toDigits 10 n = c :: rest ∧ c.isDigit := by
  obtain rfl | hn := Nat.eq_zero_or_pos n
  · exact ⟨'0', [], rfl, rfl⟩
  · obtain ⟨c, rest, heq, hc, -⟩ := exists_toDigits hn
    exact ⟨c, rest, heq, hc⟩

theorem isNumeral_toString (n : Int) : IsNumeral (toString n).toList := by
  obtain ⟨c, rest, heq, hc⟩ := exists_cons_toDigits n.natAbs
  constructor
  · intro d hd
    rw [toList_toString, List.mem_append] at hd
    obtain hd | hd := hd
    · split_ifs at hd
      · obtain rfl := List.mem_singleton.mp hd
        rfl
      · cases hd
    · exact isNumeralChar_of_isDigit (isDigit_of_mem_toDigits hd)
  · rw [toList_toString, heq]
    refine ⟨c, rest, hc, ?_⟩
    split_ifs
    · exact Or.inr rfl
    · exact Or.inl rfl

/-- The sign and the digits of an integer. -/
theorem splitSign_toString (n : Int) :
    splitSign (toString n).toList = (decide (n < 0), Nat.toDigits 10 n.natAbs) := by
  obtain ⟨c, rest, heq, hc⟩ := exists_cons_toDigits n.natAbs
  rw [toList_toString]
  by_cases hn : n < 0
  · rw [if_pos hn, decide_eq_true hn]
    rfl
  · rw [if_neg hn, decide_eq_false hn, List.nil_append, heq, splitSign_of_isDigit hc]

theorem isNatural_toDigits (n : Nat) : isNatural (Nat.toDigits 10 n) := by
  obtain rfl | hn := Nat.eq_zero_or_pos n
  · rfl
  · obtain ⟨c, rest, heq, hc, hzero⟩ := exists_toDigits hn
    have hdigits : isDigits (Nat.toDigits 10 n) := by
      rw [heq, isDigits, hc, Bool.true_and, List.all_eq_true]
      intro d hd
      rw [isDigitOrBar, isDigit_of_mem_toDigits (n := n)
        (by rw [heq]; exact List.mem_cons_of_mem _ hd),
        Bool.true_or]
    rw [heq] at hdigits ⊢
    rw [isNatural, hdigits, Bool.true_or]
    all_goals intros
    all_goals next hcons => exact hzero (List.cons.inj hcons).1

theorem isFloat_of_isDigit (hsign : (splitSign cs).2 = c :: rest) (hc : c.isDigit) : isFloat cs =
    match (c :: rest).dropWhile (· ≠ '.') with
    | _ :: fraction =>
      isDigits ((c :: rest).takeWhile (· ≠ '.')) && isFraction fraction ||
        isSexagesimal isDigits ((c :: rest).takeWhile (· ≠ '.')) && fraction.all isDigitOrBar
    | [] => false := by
  have hpoint : c ≠ '.' := ne_of_isDigit hc rfl
  rw [isFloat, hsign]
  split
  · next heq => exact absurd (List.cons.inj heq).1 hpoint
  · rfl

theorem isFloat_toString (n : Int) : isFloat (toString n).toList = false := by
  obtain ⟨c, rest, heq, hc⟩ := exists_cons_toDigits n.natAbs
  have hnone : (c :: rest).dropWhile (· ≠ '.') = [] := by
    rw [← heq, ← List.append_nil (Nat.toDigits 10 n.natAbs), List.dropWhile_append_of_pos,
      List.dropWhile_nil]
    intro d hd
    exact decide_eq_true (ne_of_isDigit (isDigit_of_mem_toDigits hd) rfl)
  rw [isFloat_of_isDigit (by rw [splitSign_toString, heq]) hc, hnone]

/-! ### Reading -/

theorem digitIn_digitChar : ∀ d < 10, digitIn? 10 d.digitChar = some d := by decide

/-- Digits, place by place. -/
theorem foldl_map {f : Char → Option Nat} {g : Char → Nat}
    (h : ∀ c ∈ cs, f c = some (g c)) (m : Nat) :
    (cs.map f).foldl (fun n d => n * 10 + d.getD 0) m = cs.foldl (fun n c => n * 10 + g c) m := by
  induction cs generalizing m with
  | nil => rfl
  | cons c cs ih =>
    rw [List.map_cons, List.foldl_cons, List.foldl_cons, h c (by simp), Option.getD_some]
    exact ih (fun c hc => h c (List.mem_cons_of_mem _ hc)) _

theorem length_toDigits_le {most : Nat} (hmost : 0 < most) (hn : n < Nat.pow 10 most) :
    (Nat.toDigits 10 n).length ≤ most := (Nat.length_toDigits_le_iff (by decide) hmost).mpr hn

/-- The digits of an integer that is short enough are read. -/
theorem readInt_toDigits (hn : 0 < n) (hlimit : n < digitLimit) :
    readInt 10 (Nat.toDigits 10 n) = .ok n := by
  obtain ⟨c, rest, heq, hc, hzero⟩ := exists_toDigits hn
  have hchars : ∀ c ∈ Nat.toDigits 10 n, isNumeralChar c :=
    fun c hc => isNumeralChar_of_isDigit (isDigit_of_mem_toDigits hc)
  have hsign : splitSign (Nat.toDigits 10 n) = (false, Nat.toDigits 10 n) := by
    rw [heq, splitSign_of_isDigit hc]
  have hmark : dropBaseMark 10 (Nat.toDigits 10 n) = Nat.toDigits 10 n := by
    rw [heq, dropBaseMark]
    intro d more hcons
    exact hzero (List.cons.inj hcons).1
  have hdigit : ∀ c ∈ Nat.toDigits 10 n, digitIn? 10 c = some (c.toNat - 48) := by
    intro c hc
    obtain ⟨d, hd, rfl⟩ := exists_of_mem_toDigits (by decide) hc
    rw [digitIn_digitChar d hd, (digitChar_spec d hd).2]
  have hall : ((Nat.toDigits 10 n).map (digitIn? 10)).takeWhile Option.isSome =
      (Nat.toDigits 10 n).map (digitIn? 10) := by
    rw [← List.append_nil ((Nat.toDigits 10 n).map (digitIn? 10)), List.takeWhile_append_of_pos,
      List.takeWhile_nil]
    intro o ho
    obtain ⟨c, hc, rfl⟩ := List.mem_map.mp ho
    rw [hdigit c hc]
    rfl
  have hlength : (Nat.toDigits 10 n).length ≤ maxDigits := by
    delta digitLimit at hlimit
    exact length_toDigits_le (by decide) hlimit
  have hempty : ((Nat.toDigits 10 n).map (digitIn? 10)).isEmpty = false := by rw [heq]; rfl
  rw [readInt, bareNumeral_eq hchars, hsign]
  dsimp only
  rw [hmark, hall, List.length_map, decide_eq_false (Nat.not_lt.mpr hlength), Bool.and_false,
    hempty, bne_self_eq_false, Bool.or_false, if_neg Bool.false_ne_true, if_neg Bool.false_ne_true,
    if_neg Bool.false_ne_true, foldl_map hdigit,
    foldl_toDigits (by decide) fun d hd => (digitChar_spec d hd).2]

theorem readUnsigned_toDigits (n : Nat) (hlimit : n < digitLimit) :
    Literal.readUnsigned (Nat.toDigits 10 n) = .ok n := by
  obtain rfl | hn := Nat.eq_zero_or_pos n
  · rfl
  · obtain ⟨c, rest, heq, hc, hzero⟩ := exists_toDigits hn
    have hcolon : (Nat.toDigits 10 n).contains ':' = false := by
      rw [List.contains_eq_mem, decide_eq_false_iff_not]
      intro hmem
      cases isDigit_of_mem_toDigits hmem
    have hread := readInt_toDigits hn hlimit
    rw [heq] at hcolon hread ⊢
    rw [Literal.readUnsigned, hcolon, if_neg Bool.false_ne_true, Literal.readDigits, hread]
    all_goals intros
    all_goals next hcons => exact hzero (List.cons.inj hcons).1

theorem dropBars_eq (h : ∀ c ∈ cs, isNumeralChar c) : Literal.dropBars cs = cs := by
  rw [Literal.dropBars, List.filter_eq_self]
  exact fun c hc => decide_eq_true (ne_of_isNumeralChar (h c hc) rfl)

theorem readInteger_toString (n : Int) (hlimit : n.natAbs < digitLimit) :
    Literal.readInteger (toString n) = .ok (.int n) := by
  obtain ⟨c, rest, heq, hc⟩ := exists_cons_toDigits n.natAbs
  have hempty : (Nat.toDigits 10 n.natAbs).isEmpty = false := by rw [heq]; rfl
  rw [Literal.readInteger, dropBars_eq (isNumeral_toString n).chars, splitSign_toString]
  dsimp only
  rw [hempty, if_neg Bool.false_ne_true, readUnsigned_toDigits _ hlimit]
  have hn : (if decide (n < 0) = true then -(n.natAbs : Int) else n.natAbs) = n := by
    simp only [decide_eq_true_eq]
    split_ifs <;> omega
  exact congrArg (fun n => Except.ok (Scalar.int n)) hn

/-! ## Floats -/

/-- The text of a finite float is its sign and a decimal text that rounds to it. -/
theorem exists_floatText {x : Binary64} (hx : x.isFinite) :
    ∃ (negative : Bool) (bits : Nat) (cs : List Char) (n : Nat) (e : Int),
    x = .ofNatBits negative bits ∧ bits < 2047 * Binary64.hiddenBit ∧
      (floatText x).toList = (if negative then ['-'] else []) ++ cs ∧ IsDecimal cs n e ∧
      Binary64.ofDecimal false n e = .ofNatBits false bits := by
  rw [Binary64.isFinite] at hx
  cases hparts : x.parts with
  | nan => rw [hparts] at hx; cases hx
  | infinite negative => rw [hparts] at hx; cases hx
  | finite negative m q =>
    obtain ⟨hfits, heq⟩ := Binary64.fits_of_parts hparts
    obtain ⟨body, hbody, n, e, hdecimal, hread⟩ : ∃ body,
        body = (if m = 0 then ['0', '.', '0'] else (Binary64.shortest m q).layout) ∧
        ∃ n e, IsDecimal (Binary64.withPoint body) n e ∧
          Binary64.ofDecimal false n e = .ofNatBits false (Binary64.bitsOf m q) := by
      refine ⟨_, rfl, ?_⟩
      split_ifs with hm
      · have hwhole : ∀ c ∈ ['0'], c.isDigit := List.forall_mem_singleton.mpr rfl
        refine ⟨_, _, IsDecimal.plain (List.cons_ne_nil _ _) hwhole hwhole, ?_⟩
        rw [hm, Binary64.bitsOf_subnormal (by decide)]
        rfl
      · have hpos := Nat.pos_of_ne_zero hm
        obtain ⟨v, ⟨n, e, hdecimal, rfl⟩, hcell⟩ := Binary64.gives_shortest hfits hpos
        exact ⟨n, e, hdecimal, Binary64.ofDecimal_of_cell hfits hpos hcell⟩
    refine ⟨negative, _, _, n, e, heq, hfits.bitsOf_lt, ?_, hdecimal, hread⟩
    have htext : x.text.toList = if negative then '-' :: body else body := by
      rw [Binary64.text, hparts]
      dsimp only
      rw [← hbody, String.toList_ofList]
    have hpoint : (floatText x).toList = Binary64.withPoint x.text.toList := by
      rw [floatText, hparts, Binary64.withPoint]
      dsimp only
      split_ifs
      · rfl
      · rw [String.toList_ofList]
    rw [hpoint, htext]
    split_ifs
    · rw [Binary64.withPoint_minus]
      rfl
    · rfl

theorem isNumeral_of_isDecimal (h : IsDecimal cs n e) (negative : Bool) :
    IsNumeral ((if negative then ['-'] else []) ++ cs) := by
  obtain ⟨c, rest, heq, hc⟩ := h.starts
  constructor
  · intro d hd
    obtain hd | hd := List.mem_append.mp hd
    · split_ifs at hd
      · obtain rfl := List.mem_singleton.mp hd
        rfl
      · cases hd
    · exact h.chars d hd
  · refine ⟨c, rest, hc, ?_⟩
    rw [heq]
    cases negative
    · exact Or.inl rfl
    · exact Or.inr rfl

theorem splitSign_of_isDecimal (h : IsDecimal cs n e) (negative : Bool) :
    splitSign ((if negative then ['-'] else []) ++ cs) = (negative, cs) := by
  obtain ⟨c, rest, rfl, hc⟩ := h.starts
  cases negative
  · exact splitSign_of_isDigit hc
  · rfl

theorem isDigits_of_isDigit (hne : cs ≠ []) (h : ∀ c ∈ cs, c.isDigit) : isDigits cs := by
  obtain ⟨c, rest, rfl⟩ := List.exists_cons_of_ne_nil hne
  rw [isDigits, h c (by simp), Bool.true_and, List.all_eq_true]
  intro d hd
  rw [isDigitOrBar, h d (List.mem_cons_of_mem _ hd), Bool.true_or]

/-- Digits behind the point, and nothing or an exponent. -/
theorem isFraction_append (h : ∀ c ∈ cs, c.isDigit) (tail : List Char)
    (htail : tail.takeWhile (fun c => !isExponentMark c) = [] ∧
      isExponent (tail.dropWhile fun c => !isExponentMark c)) : isFraction (cs ++ tail) := by
  have hmark : ∀ c ∈ cs, (!isExponentMark c) = true := by
    intro c hc
    rw [isExponentMark, beq_eq_false_iff_ne.mpr (ne_of_isDigit (h c hc) rfl),
      beq_eq_false_iff_ne.mpr (ne_of_isDigit (h c hc) rfl)]
    rfl
  rw [isFraction, List.takeWhile_append_of_pos hmark, List.dropWhile_append_of_pos hmark, htail.1,
    htail.2, List.append_nil, Bool.and_true, List.all_eq_true]
  intro d hd
  rw [isDigitOrBar, h d hd, Bool.true_or]

theorem isFloat_of_isDecimal (h : IsDecimal cs n e) (negative : Bool) :
    isFloat ((if negative then ['-'] else []) ++ cs) := by
  have hsign := splitSign_of_isDecimal h negative
  obtain ⟨c, rest, heq, hc⟩ := h.starts
  rw [isFloat_of_isDigit (by rw [hsign, heq]) hc, ← heq]
  have hpoint : ∀ {whole : List Char}, (∀ c ∈ whole, c.isDigit) →
      ∀ c ∈ whole, decide (c ≠ '.') = true :=
    fun h c hc => decide_eq_true (ne_of_isDigit (h c hc) rfl)
  cases h with
  | @plain whole fraction hne hwhole hfraction =>
    rw [List.takeWhile_append_of_pos (hpoint hwhole), List.dropWhile_append_of_pos (hpoint hwhole),
      List.takeWhile_cons_of_neg (by simp), List.dropWhile_cons_of_neg (by simp), List.append_nil]
    dsimp only
    have hbehind := isFraction_append hfraction [] ⟨rfl, rfl⟩
    rw [List.append_nil] at hbehind
    rw [isDigits_of_isDigit hne hwhole, hbehind]
    rfl
  | @scaled whole fraction ds isSmall hne hwhole hfraction hds hdigits =>
    rw [List.append_assoc, List.takeWhile_append_of_pos (hpoint hwhole),
      List.dropWhile_append_of_pos (hpoint hwhole),
      List.cons_append, List.takeWhile_cons_of_neg (by simp), List.dropWhile_cons_of_neg (by simp),
        List.append_nil]
    dsimp only
    have hexponent : isExponent ('e' :: (if isSmall then '-' else '+') :: ds) := by
      obtain ⟨d, more, rfl⟩ := List.exists_cons_of_ne_nil hds
      rw [isExponent, List.all_eq_true.mpr hdigits]
      cases isSmall <;> rfl
    have hbehind := isFraction_append hfraction ('e' :: (if isSmall then '-' else '+') :: ds)
      ⟨rfl, hexponent⟩
    rw [isDigits_of_isDigit hne hwhole, hbehind]
    rfl

/-! ### Reading -/

theorem lowerAfter_eq (h : ∀ c ∈ cs, isNumeralChar c) (before : List Char) :
    Text.lowerAfter before cs = cs := by
  induction cs generalizing before with
  | nil => rfl
  | cons c cs ih =>
    have hc := h c (by simp)
    have hsigma : c ≠ 'Σ' := ne_of_isNumeralChar hc rfl
    have hascii : c.toNat < 128 :=
      isNumeralChar_cases (P := fun c => c.toNat < 128) hc (fun c hlow hhigh => by omega)
        (by decide) (by decide)
        (by decide) (by decide)
    rw [Text.lowerAfter, ih fun c hc => h c (List.mem_cons_of_mem _ hc), if_neg hsigma,
      Text.lowerChar, if_pos hascii, toLower_of_isNumeralChar hc]
    rfl

/-- A decimal text is read as the float that it names. -/
theorem readFloat_of_isDecimal {text : String} {negative : Bool} {bits : Nat} (h : IsDecimal cs n e)
    (htext : text.toList = (if negative then ['-'] else []) ++ cs)
    (hbits : bits < 2047 * Binary64.hiddenBit)
    (hread : Binary64.ofDecimal false n e = .ofNatBits false bits) (place : Nat) :
    Literal.readFloat place text = .ok (.float (.ofNatBits negative bits)) := by
  obtain ⟨c, rest, hcs, hc⟩ := h.starts
  have hnumeral := isNumeral_of_isDecimal h negative
  rw [← htext] at hnumeral
  have hlower :
      (Text.lower (String.ofList (Literal.dropBars text.toList))).toList = text.toList := by
    rw [dropBars_eq hnumeral.chars, String.ofList_toList, Text.lower, String.toList_ofList,
      lowerAfter_eq hnumeral.chars]
  have hempty : text.toList.isEmpty = false := List.isEmpty_eq_false_iff.mpr hnumeral.ne_nil
  have hword : ∀ w : List Char, cs ≠ '.' :: w := by
    rintro w heq
    rw [hcs] at heq
    cases heq
    cases hc
  have hcolon : cs.contains ':' = false := by
    rw [List.contains_eq_mem, decide_eq_false_iff_not]
    intro hmem
    cases h.chars _ hmem
  have hnan : cs ≠ ".nan".toList := hword ['n', 'a', 'n']
  have hinf : cs ≠ ".inf".toList := hword ['i', 'n', 'f']
  have hsmall : bits < Binary64.signBit := by
    rw [Binary64.hiddenBit_eq] at hbits
    rw [Binary64.signBit_eq]
    omega
  rw [Literal.readFloat, hlower]
  dsimp only
  rw [hempty, if_neg Bool.false_ne_true, htext, splitSign_of_isDecimal h]
  dsimp only
  rw [if_neg hnan, if_neg hinf, hcolon, if_neg Bool.false_ne_true, Literal.readDecimal,
    Binary64.read_of_isDecimal h, hread]
  dsimp only
  show Except.ok (Scalar.float (if (Binary64.ofNatBits false bits).isNaN then .nanNamed (place + 2)
    else if negative then (Binary64.ofNatBits false bits).neg else .ofNatBits false bits)) = _
  rw [Binary64.isNaN_ofNatBits hbits, if_neg Bool.false_ne_true, Binary64.neg_ofNatBits hsmall]
  cases negative <;> rfl

/-! ## All scalars -/

theorem readBool_scalarText (b : Bool) :
    Literal.readBool (scalarText (.bool b)) = .ok (.bool b) := by
  have htrue : "true".toLower = "true" := by
    unfold String.toLower
    rw [← String.toList_inj, String.toList_map]
    decide
  have hfalse : "false".toLower = "false" := by
    unfold String.toLower
    rw [← String.toList_inj, String.toList_map]
    decide
  cases b
  · rw [scalarText, if_neg Bool.false_ne_true, Literal.readBool, hfalse]
    rfl
  · rw [scalarText, if_pos rfl, Literal.readBool, htrue]
    rfl

theorem readsPlain_int (n : Int) : ReadsPlain (.int n) where
  tag := (isNumeral_toString n).ofPlain_eq (Or.inr ⟨isFloat_toString n,
    by rw [isInteger, splitSign_toString]; exact isNatural_toDigits _, rfl⟩)
  look := (isNumeral_toString n).allowsPlain
  ne_nil := (isNumeral_toString n).ne_nil
  noBlock := rfl

/-- Data is written so that it is read back: numbers, booleans and null plain, and texts under their
own kind. -/
theorem writable_of_isData {s : Scalar} (hdata : s.isData) (htext : s.hasText)
    (hkept : styleOf false s ≠ .double → ∀ c ∈ (scalarText s).toList, c ≠ '\u0085') :
    Writable s := by
  cases s with
  | null => exact ⟨⟨by decide, fun _ => rfl⟩, Or.inr ⟨by decide, by decide, by decide, rfl⟩, hkept⟩
  | bool b =>
    have hplain : ReadsPlain (.bool b) := by
      cases b <;> exact ⟨by decide, by decide, by decide, rfl⟩
    exact ⟨⟨rfl, fun _ => readBool_scalarText b⟩, Or.inr hplain, hkept⟩
  | int n =>
    refine ⟨⟨rfl, fun _ => ?_⟩, Or.inr (readsPlain_int n), hkept⟩
    exact readInteger_toString n (of_decide_eq_true htext)
  | float x =>
    obtain ⟨negative, bits, cs, n, e, rfl, hbits, heq, hdecimal, hread⟩ := exists_floatText hdata
    have hnumeral := isNumeral_of_isDecimal hdecimal negative
    rw [← heq] at hnumeral
    have hfloat : isFloat (floatText (.ofNatBits negative bits)).toList := by
      rw [heq]
      exact isFloat_of_isDecimal hdecimal negative
    refine ⟨⟨rfl, fun place => ?_⟩, Or.inr ⟨?_, hnumeral.allowsPlain, hnumeral.ne_nil, rfl⟩, hkept⟩
    · exact readFloat_of_isDecimal hdecimal heq hbits hread place
    · exact hnumeral.ofPlain_eq (Or.inl ⟨hfloat, rfl⟩)
  | str text => exact ⟨⟨rfl, fun _ => rfl⟩, Or.inl ⟨text, rfl⟩, hkept⟩
  | date _ => cases hdata
  | timestamp _ => cases hdata
  | bytes _ => cases hdata
  | pair _ _ => cases hdata

end Yaml

end StepLoom
