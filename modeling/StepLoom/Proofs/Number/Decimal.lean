import StepLoom.Number.Reading
import StepLoom.Proofs.Number.Digits
import StepLoom.Proofs.Number.Rounding

/-!
# Decimal numbers that round to a double

`Binary64.read?` gives the double whose cell the decimal number lies in (`IsDecimal.read`). Between
the text and the double stands the number itself, as digits and an exponent of ten: `IsDecimal` is
the form of a text with a point among its digits.
-/

namespace StepLoom

variable {c : Char} {cs ds whole fraction : List Char} {n k : Nat}

/-! ## The value of digits -/

theorem digitChar_spec : ∀ d < 10, d.digitChar.isDigit ∧ d.digitChar.toNat - 48 = d := by decide

theorem isDigit_of_mem_toDigits (hc : c ∈ Nat.toDigits 10 n) : c.isDigit := by
  obtain ⟨d, hd, rfl⟩ := exists_of_mem_toDigits (by decide) hc
  exact (digitChar_spec d hd).1

theorem digitsValue_eq (h : ∀ c ∈ cs, c.isDigit) :
    digitsValue cs = cs.foldl (fun n c => n * 10 + (c.toNat - 48)) 0 := by
  rw [digitsValue, List.filter_eq_self.mpr h]

theorem digitsValue_toDigits (n : Nat) : digitsValue (Nat.toDigits 10 n) = n := by
  rw [digitsValue_eq fun c => isDigit_of_mem_toDigits,
    foldl_toDigits (by decide) fun d hd => (digitChar_spec d hd).2]

theorem digitsValue_zeros_append (k : Nat) (cs : List Char) :
    digitsValue (List.replicate k '0' ++ cs) = digitsValue cs := by
  rw [digitsValue, List.filter_append, List.filter_eq_self.mpr fun c hc => by
    rw [List.eq_of_mem_replicate hc]; rfl]
  exact foldl_zeros rfl k _

theorem digitsValue_append_zeros (cs : List Char) (k : Nat) :
    digitsValue (cs ++ List.replicate k '0') = digitsValue cs * 10 ^ k := by
  induction k with
  | zero => simp
  | succ k ih =>
    rw [List.replicate_succ', ← List.append_assoc, digitsValue, List.filter_append,
      List.foldl_append, ← digitsValue, ih, pow_succ, ← Nat.mul_assoc]
    rfl

theorem digitsValue_cons_zero (cs : List Char) : digitsValue ('0' :: cs) = digitsValue cs :=
  digitsValue_zeros_append 1 cs

/-- How many digits a number has. -/
theorem le_of_length_toDigits (hn : 0 < n) : 10 ^ ((Nat.toDigits 10 n).length - 1) ≤ n := by
  by_contra h
  obtain hk | hk := Nat.eq_zero_or_pos ((Nat.toDigits 10 n).length - 1)
  · rw [hk] at h
    simp at h
    omega
  · have := (Nat.length_toDigits_le_iff (by decide) hk).mpr (Nat.not_le.mp h)
    omega

theorem lt_of_length_toDigits (n : Nat) : n < 10 ^ (Nat.toDigits 10 n).length :=
  (Nat.length_toDigits_le_iff (by decide) Nat.length_toDigits_pos).mp le_rfl

namespace Binary64

variable {m : Nat} {q e : Int} {x : Binary64} {negative : Bool}

theorem zpow_pos_ten (e : Int) : (0 : ℚ) < 10 ^ e := zpow_pos (by norm_num) e

theorem zpow_add_ten (a b : Int) : (10 : ℚ) ^ (a + b) = 10 ^ a * 10 ^ b :=
    zpow_add₀ (by norm_num) a b

theorem pow_two_lt_pow_ten : (2 : ℚ) ^ (1200 : Int) < 10 ^ (400 : Int) := by
  rw [show (1200 : Int) = 3 * 400 from rfl, zpow_mul]
  exact zpow_lt_zpow_left₀ (by decide) (by norm_num) (by norm_num)

/-- Numbers of the cells of doubles are neither very large nor very small. -/
theorem Cell.bounds {v : ℚ} (hfits : Fits m q) (hm : 0 < m) (h : Cell m q v) :
    (10 : ℚ) ^ (-400 : Int) < v ∧ v < 10 ^ (400 : Int) := by
  have hpow := zpow_pos_two q
  have hm' : (1 : ℚ) ≤ m := by exact_mod_cast hm
  constructor
  · have hmin := hfits.minExponent_le
    rw [minExponent] at hmin
    have hhalf : (2 : ℚ) ^ (-1 : Int) = 1 / 2 := by norm_num
    calc (10 : ℚ) ^ (-400 : Int) < 2 ^ (-1200 : Int) := by
          rw [zpow_neg, zpow_neg]
          exact inv_strictAnti₀ (zpow_pos_two _) pow_two_lt_pow_ten
      _ ≤ 2 ^ (-1 + q) := zpow_le_zpow_right₀ (by norm_num) (by omega)
      _ = 1 / 2 * 2 ^ q := by rw [zpow_add_two, hhalf]
      _ ≤ (m - below m q) * 2 ^ q := mul_le_mul_of_nonneg_right (by linarith [below_le m q]) hpow.le
      _ ≤ v := h.ge
  · have hmax := hfits.le_maxExponent
    have hlt : (m : ℚ) + 1 ≤ 9007199254740992 := by exact_mod_cast hfits.lt
    have hfifty : (2 : ℚ) ^ (53 : Int) = 9007199254740992 := by norm_num
    calc v ≤ (m + 1 / 2) * 2 ^ q := h.le
      _ ≤ 2 ^ (53 : Int) * 2 ^ q := by
          rw [hfifty]
          exact mul_le_mul_of_nonneg_right (by linarith) hpow.le
      _ = 2 ^ (53 + q) := (zpow_add_two 53 q).symm
      _ ≤ 2 ^ (1200 : Int) := zpow_le_zpow_right₀ (by norm_num) (by omega)
      _ < 10 ^ (400 : Int) := pow_two_lt_pow_ten

/-- A decimal number is read as the double whose cell it lies in. -/
theorem ofDecimal_of_cell (hfits : Fits m q) (hm : 0 < m) (h : Cell m q (n * 10 ^ e)) :
    ofDecimal negative n e = ofNatBits negative (bitsOf m q) := by
  obtain ⟨hsmall, hlarge⟩ := h.bounds hfits hm
  have hten := zpow_pos_ten e
  have hn : 0 < n := by
    rw [Nat.pos_iff_ne_zero]
    rintro rfl
    have := zpow_pos_ten (-400)
    simp only [Nat.cast_zero, zero_mul] at hsmall
    linarith
  have hlength := Nat.length_toDigits_pos (b := 10) (n := n)
  have hlow : (-400 : Int) < (Nat.toDigits 10 n).length + e := by
    refine (zpow_lt_zpow_iff_right₀ (show (1 : ℚ) < 10 by norm_num)).mp (hsmall.trans ?_)
    rw [zpow_add_ten, zpow_natCast]
    have hlt : (n : ℚ) < 10 ^ (Nat.toDigits 10 n).length := by
      exact_mod_cast lt_of_length_toDigits n
    exact mul_lt_mul_of_pos_right hlt hten
  have hhigh : ((Nat.toDigits 10 n).length : Int) + e ≤ 400 := by
    have hlt : (((Nat.toDigits 10 n).length - 1 : Nat) : Int) + e < 400 := by
      refine (zpow_lt_zpow_iff_right₀ (show (1 : ℚ) < 10 by norm_num)).mp (lt_of_le_of_lt ?_ hlarge)
      rw [zpow_add_ten, zpow_natCast]
      have hle : (10 : ℚ) ^ ((Nat.toDigits 10 n).length - 1) ≤ n := by
        exact_mod_cast le_of_length_toDigits hn
      exact mul_le_mul_of_nonneg_right hle hten.le
    omega
  rw [ofDecimal, if_neg (by omega), if_neg (by omega)]
  split_ifs with he
  · refine nearest_of_cell hfits (Nat.mul_pos hn (Nat.pow_pos (by decide))) Nat.one_pos ?_
    obtain ⟨k, rfl⟩ := Int.eq_ofNat_of_zero_le he
    simpa using h
  · refine nearest_of_cell hfits hn (Nat.pow_pos (by decide)) ?_
    obtain ⟨k, rfl⟩ := Int.exists_eq_neg_ofNat (show e ≤ 0 by omega)
    simpa [zpow_neg, div_eq_mul_inv] using h

end Binary64

/-! ## The characters of numbers -/

/-- The characters that numbers are written with. -/
def isNumeralChar (c : Char) : Bool := c.isDigit || c == '-' || c == '+' || c == '.' || c == 'e'

theorem isDigit_iff : c.isDigit ↔ 48 ≤ c.toNat ∧ c.toNat ≤ 57 := Char.isDigit_iff_toNat

theorem isNumeralChar_of_isDigit (h : c.isDigit) : isNumeralChar c := by
  rw [isNumeralChar, h]
  rfl

theorem ne_of_isDigit {d : Char} (h : c.isDigit) (hd : d.isDigit = false) : c ≠ d := by
  rintro rfl
  rw [h] at hd
  cases hd

theorem ne_of_isNumeralChar {d : Char} (h : isNumeralChar c) (hd : isNumeralChar d = false) :
    c ≠ d := by
  rintro rfl
  rw [h] at hd
  cases hd

/-- A property of the characters of numbers is checked on digits, by their code points, and on the
four others. -/
theorem isNumeralChar_cases {P : Char → Prop} (h : isNumeralChar c)
    (hdigit : ∀ c : Char, 48 ≤ c.toNat → c.toNat ≤ 57 → P c) (hminus : P '-') (hplus : P '+')
    (hpoint : P '.') (hexponent : P 'e') : P c := by
  simp only [isNumeralChar, Bool.or_eq_true, beq_iff_eq] at h
  obtain (((h | rfl) | rfl) | rfl) | rfl := h
  · exact hdigit c (isDigit_iff.mp h).1 (isDigit_iff.mp h).2
  · exact hminus
  · exact hplus
  · exact hpoint
  · exact hexponent

theorem toLower_of_isNumeralChar (h : isNumeralChar c) : c.toLower = c := by
  refine isNumeralChar_cases (P := fun c => c.toLower = c) h (fun c hlow hhigh => ?_) rfl rfl rfl
    rfl
  unfold Char.toLower
  rw [dif_neg]
  rintro ⟨hA, -⟩
  rw [ge_iff_le, UInt32.le_iff_toNat_le] at hA
  exact absurd (hA.trans hhigh) (by decide)

theorem plainNumeralChar_of_isNumeralChar (h : isNumeralChar c) : Text.plainNumeralChar c = c := by
  refine isNumeralChar_cases (P := fun c => Text.plainNumeralChar c =
    c) h (fun c hlow hhigh => ?_) rfl rfl rfl rfl
  rw [Text.plainNumeralChar, if_pos (by omega)]

theorem isNumeralBlank_of_isNumeralChar (h : isNumeralChar c) : Text.isNumeralBlank c = false := by
  refine isNumeralChar_cases (P := fun c => Text.isNumeralBlank c =
    false) h (fun c hlow hhigh => ?_) rfl rfl rfl rfl
  rw [Text.isNumeralBlank, Bool.or_eq_false_iff, beq_eq_false_iff_ne, decide_eq_false_iff_not]
  refine ⟨?_, by omega⟩
  rintro rfl
  exact absurd hlow (by decide)

theorem dropWhile_of_head {p : Char → Bool} (h : ∀ c ∈ cs, p c = false) : cs.dropWhile p = cs := by
  cases cs with
  | nil => rfl
  | cons c rest => rw [List.dropWhile_cons_of_neg (by rw [h c (by simp)]; exact Bool.false_ne_true)]

theorem bareNumeral_eq (h : ∀ c ∈ cs, isNumeralChar c) : Text.bareNumeral cs = cs := by
  have hplain : Text.plainNumeral cs = cs := by
    rw [Text.plainNumeral, List.map_congr_left fun c hc => plainNumeralChar_of_isNumeralChar
      (h c hc), List.map_id']
  have hblank : ∀ c ∈ cs, Text.isNumeralBlank c = false :=
    fun c hc => isNumeralBlank_of_isNumeralChar (h c hc)
  rw [Text.bareNumeral, hplain, dropWhile_of_head hblank, Text.dropEndWhile,
    dropWhile_of_head fun c hc => hblank c (List.mem_reverse.mp hc), List.reverse_reverse]

theorem map_toLower_eq (h : ∀ c ∈ cs, isNumeralChar c) : cs.map Char.toLower = cs := by
  rw [List.map_congr_left fun c hc => toLower_of_isNumeralChar (h c hc), List.map_id']

theorem splitSign_of_isDigit (h : c.isDigit) : splitSign (c :: cs) = (false, c :: cs) := by
  have hminus : c ≠ '-' := ne_of_isDigit h rfl
  have hplus : c ≠ '+' := ne_of_isDigit h rfl
  rw [splitSign]
  · rintro rest ⟨⟩
    exact hminus rfl
  · rintro rest ⟨⟩
    exact hplus rfl

/-! ## Decimal texts -/

/-- The text of a decimal number `n * 10 ^ e`: digits with a point among them, and perhaps an
exponent. -/
inductive IsDecimal : (cs : List Char) → (n : Nat) → (e : Int) → Prop
  | plain {whole fraction : List Char} : whole ≠ [] → (∀ c ∈ whole, c.isDigit) →
      (∀ c ∈ fraction, c.isDigit) →
      IsDecimal (whole ++ '.' :: fraction) (digitsValue (whole ++ fraction))
      (-(fraction.length : Int))
  | scaled {whole fraction ds : List Char} (isSmall : Bool) :
      whole ≠ [] → (∀ c ∈ whole, c.isDigit) →
      (∀ c ∈ fraction, c.isDigit) → ds ≠ [] → (∀ c ∈ ds, c.isDigit) →
      IsDecimal (whole ++ '.' :: fraction ++ 'e' :: (if isSmall then '-' else '+') :: ds)
        (digitsValue (whole ++ fraction))
        ((if isSmall then -(digitsValue ds : Int) else digitsValue ds) - fraction.length)

namespace IsDecimal

variable {e : Int}

theorem starts (h : IsDecimal cs n e) : ∃ c rest, cs = c :: rest ∧ c.isDigit := by
  cases h with
  | plain hne hwhole _ =>
    obtain ⟨c, rest, rfl⟩ := List.exists_cons_of_ne_nil hne
    exact ⟨c, _, rfl, hwhole c (by simp)⟩
  | scaled _ hne hwhole _ _ _ =>
    obtain ⟨c, rest, rfl⟩ := List.exists_cons_of_ne_nil hne
    exact ⟨c, _, rfl, hwhole c (by simp)⟩

theorem chars (h : IsDecimal cs n e) : ∀ c ∈ cs, isNumeralChar c := by
  intro c hc
  cases h with
  | plain _ hwhole hfraction =>
    simp only [List.mem_append, List.mem_cons] at hc
    obtain hc | rfl | hc := hc
    · exact isNumeralChar_of_isDigit (hwhole c hc)
    · rfl
    · exact isNumeralChar_of_isDigit (hfraction c hc)
  | scaled isSmall _ hwhole hfraction _ hds =>
    simp only [List.mem_append, List.mem_cons] at hc
    obtain (hc | rfl | hc) | rfl | rfl | hc := hc
    · exact isNumeralChar_of_isDigit (hwhole c hc)
    · rfl
    · exact isNumeralChar_of_isDigit (hfraction c hc)
    · rfl
    · cases isSmall <;> rfl
    · exact isNumeralChar_of_isDigit (hds c hc)

end IsDecimal

namespace Binary64

variable {e : Int} {negative : Bool}

theorem readPlain_eq (hne : whole ≠ []) (hwhole : ∀ c ∈ whole, c.isDigit)
    (hfraction : ∀ c ∈ fraction, c.isDigit)
    (negative : Bool) (e : Int) : readPlain? negative (whole ++ '.' :: fraction) e =
      some (ofDecimal negative (digitsValue (whole ++ fraction)) (e - fraction.length)) := by
  have hpoint : ∀ c ∈ whole, decide (c ≠ '.') = true :=
    fun c hc => decide_eq_true (ne_of_isDigit (hwhole c hc) rfl)
  have htake : (whole ++ '.' :: fraction).takeWhile (· ≠ '.') = whole := by
    rw [List.takeWhile_append_of_pos hpoint, List.takeWhile_cons_of_neg (by simp), List.append_nil]
  have hdrop : (whole ++ '.' :: fraction).dropWhile (· ≠ '.') = '.' :: fraction := by
    rw [List.dropWhile_append_of_pos hpoint, List.dropWhile_cons_of_neg (by simp)]
  have hall : (whole ++ fraction).all Char.isDigit = true := by
    rw [List.all_append, Bool.and_eq_true, List.all_eq_true, List.all_eq_true]
    exact ⟨hwhole, hfraction⟩
  have hempty : (whole ++ fraction).isEmpty = false := by
    rw [List.isEmpty_eq_false_iff]
    exact fun h => hne (List.append_eq_nil_iff.mp h).1
  rw [readPlain?]
  simp only [htake, hdrop, List.drop_one, List.tail_cons, hall, hempty, Bool.not_true, Bool.or_self,
    Bool.false_eq_true, if_false]

theorem readExponent_eq (isSmall : Bool) {ds : List Char} (hne : ds ≠ [])
    (hds : ∀ c ∈ ds, c.isDigit) :
    readExponent? ((if isSmall then '-' else '+') :: ds) =
      some (if isSmall then -(digitsValue ds : Int) else digitsValue ds) := by
  have hsign : splitSign ((if isSmall then '-' else '+') :: ds) = (isSmall, ds) := by
    cases isSmall <;> rfl
  have hall : ds.all Char.isDigit = true := List.all_eq_true.mpr hds
  have hempty : ds.isEmpty = false := List.isEmpty_eq_false_iff.mpr hne
  rw [readExponent?, hsign]
  simp only [hall, hempty, Bool.not_true, Bool.or_self, Bool.false_eq_true, if_false]

/-- A decimal text is read as the number it gives. -/
theorem read_of_isDecimal {cs : List Char} (h : IsDecimal cs n e) :
    read? cs = some (ofDecimal false n e) := by
  obtain ⟨c, rest, hcs, hc⟩ := h.starts
  have hbare : (Text.bareNumeral cs).map Char.toLower = cs := by
    rw [bareNumeral_eq h.chars, map_toLower_eq h.chars]
  have hword : ∀ (d : Char) (w : List Char), d.isDigit = false → cs ≠ d :: w := by
    intro d w hd heq
    rw [hcs] at heq
    cases heq
    rw [hc] at hd
    cases hd
  have hinf : ¬ (cs = "inf".toList ∨ cs = "infinity".toList) :=
    not_or.mpr ⟨hword 'i' ['n', 'f'] rfl, hword 'i' ['n', 'f', 'i', 'n', 'i', 't', 'y'] rfl⟩
  have hnan : cs ≠ "nan".toList := hword 'n' ['a', 'n'] rfl
  rw [read?, hbare, hcs, splitSign_of_isDigit hc, ← hcs]
  dsimp only
  rw [if_neg hinf, if_neg hnan]
  have hmark : ∀ {whole fraction : List Char}, (∀ c ∈ whole, c.isDigit) →
    (∀ c ∈ fraction, c.isDigit) →
      ∀ c ∈ whole ++ '.' :: fraction, decide (c ≠ 'e') = true := by
    intro whole fraction hwhole hfraction c hc
    rw [decide_eq_true_eq]
    rintro rfl
    simp only [List.mem_append, List.mem_cons] at hc
    obtain hc | hc | hc := hc
    · cases hwhole _ hc
    · cases hc
    · cases hfraction _ hc
  cases h with
  | @plain whole fraction hne hwhole hfraction =>
    rw [← List.append_nil (whole ++ '.' :: fraction), List.takeWhile_append_of_pos
      (hmark hwhole hfraction),
      List.dropWhile_append_of_pos (hmark hwhole hfraction), List.takeWhile_nil, List.dropWhile_nil,
      List.append_nil]
    dsimp only
    rw [readPlain_eq hne hwhole hfraction, Int.zero_sub]
  | @scaled whole fraction ds isSmall hne hwhole hfraction hds hdigits =>
    rw [List.takeWhile_append_of_pos (hmark hwhole hfraction), List.takeWhile_cons_of_neg (by simp),
      List.append_nil, List.dropWhile_append_of_pos (hmark hwhole hfraction),
      List.dropWhile_cons_of_neg (by simp)]
    dsimp only
    rw [readExponent_eq isSmall hds hdigits, Option.bind_eq_bind, Option.bind_some,
      readPlain_eq hne hwhole hfraction]

end Binary64

end StepLoom
