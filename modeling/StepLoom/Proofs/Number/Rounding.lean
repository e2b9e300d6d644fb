import StepLoom.Number.Binary64
import Mathlib.Algebra.Order.Field.Power
import Mathlib.Algebra.Order.Field.Rat
import Mathlib.Tactic.FieldSimp
import Mathlib.Tactic.Linarith
import Mathlib.Tactic.NormNum
import Mathlib.Tactic.Positivity
import Mathlib.Tactic.Ring

/-!
# Rounding to doubles

A finite double is `± m · 2 ^ q`, and `Fits` says which `m` and `q` occur. The numbers next to it
form its cell (`Cell`): they reach half of the last place up and down, below a power of two a
quarter down, and the ends belong to the cell of an even `m`. `nearest` gives the double of the cell
that the number lies in (`nearest_of_cell`), so a text that names any number of the cell reads back
as the double.
-/

namespace StepLoom

namespace Binary64

variable {num den m : Nat} {q e : Int} {v : ℚ} {x : Binary64} {negative : Bool}

theorem hiddenBit_eq : hiddenBit = 4503599627370496 := rfl

theorem signBit_eq : signBit = 9223372036854775808 := rfl

/-! ## The bits of finite numbers -/

/-- The significands and exponents of finite numbers. -/
inductive Fits (m : Nat) (q : Int) : Prop
  | subnormal : m < hiddenBit → q = minExponent → Fits m q
  | normal : hiddenBit ≤ m → m < 2 * hiddenBit → minExponent ≤ q → q ≤ 971 → Fits m q

/-- The bits of `m · 2 ^ q` without its sign. -/
def bitsOf (m : Nat) (q : Int) : Nat :=
  if m < hiddenBit then m else (q + 1075).toNat * hiddenBit + (m - hiddenBit)

theorem Fits.minExponent_le (h : Fits m q) : minExponent ≤ q := by
  cases h with
  | subnormal _ hq => exact hq.ge
  | normal _ _ hq _ => exact hq

theorem Fits.le_maxExponent (h : Fits m q) : q ≤ 971 := by
  cases h with
  | subnormal _ hq => rw [hq]; decide
  | normal _ _ _ hq => exact hq

theorem Fits.lt (h : Fits m q) : m < 2 * hiddenBit := by
  cases h with
  | subnormal hm _ => omega
  | normal _ hm _ _ => exact hm

theorem Fits.hiddenBit_le (h : Fits m q) (hq : minExponent < q) : hiddenBit ≤ m := by
  cases h with
  | subnormal _ hmin => exact absurd hq (hmin ▸ Int.lt_irrefl _)
  | normal hm _ _ _ => exact hm

theorem bitsOf_subnormal (h : m < hiddenBit) : bitsOf m q = m := if_pos h

theorem bitsOf_normal (h : hiddenBit ≤ m) :
    bitsOf m q = (q + 1075).toNat * hiddenBit + (m - hiddenBit) := if_neg (Nat.not_lt.mpr h)

theorem eq_ofNatBits (x : Binary64) :
    x = ofNatBits (decide (signBit ≤ x.bits.toNat)) (x.bits.toNat % signBit) := by
  have hlt := x.bits.toNat_lt
  have hbits : (if decide (signBit ≤ x.bits.toNat) = true then x.bits.toNat % signBit + signBit
      else x.bits.toNat % signBit) = x.bits.toNat := by
    rw [signBit_eq]
    split_ifs with hsign <;> simp only [decide_eq_true_eq] at hsign <;> omega
  rw [ofNatBits, hbits, UInt64.ofNat_toNat]

theorem fits_of_parts (h : x.parts = .finite negative m q) :
    Fits m q ∧ x = ofNatBits negative (bitsOf m q) := by
  have hlt := x.bits.toNat_lt
  have hbits := eq_ofNatBits x
  have hsign := signBit_eq
  have hhidden := hiddenBit_eq
  have hfraction := Nat.mod_lt x.bits.toNat (show 0 < hiddenBit by decide)
  rw [parts] at h
  split_ifs at h with hspecial hzero hsmall
  · cases h
    refine ⟨.subnormal hfraction rfl, ?_⟩
    have hm : x.bits.toNat % signBit = x.bits.toNat % hiddenBit := by
      rw [hsign, hhidden] at *
      omega
    rw [bitsOf_subnormal hfraction, ← hm]
    exact hbits
  · cases h
    have hle : hiddenBit ≤ x.bits.toNat % hiddenBit + hiddenBit := Nat.le_add_left ..
    refine ⟨.normal hle (by omega) (by rw [minExponent]; omega) (by rw [hhidden] at *; omega), ?_⟩
    have hm : x.bits.toNat % signBit =
        (((x.bits.toNat / hiddenBit % 2048 : Nat) : Int) - 1075 + 1075).toNat * hiddenBit +
          (x.bits.toNat % hiddenBit + hiddenBit - hiddenBit) := by
      rw [hsign, hhidden] at *
      omega
    rw [bitsOf_normal hle, ← hm]
    exact hbits

/-- The bits without the sign are not enough for infinity. -/
theorem Fits.bitsOf_lt (h : Fits m q) : bitsOf m q < 2047 * hiddenBit := by
  have hq := h.le_maxExponent
  have hm := h.lt
  rw [hiddenBit_eq] at hm
  rw [bitsOf, hiddenBit_eq]
  split_ifs <;> omega

theorem toNat_ofNatBits {n : Nat} (hn : n < signBit) : (ofNatBits false n).bits.toNat = n := by
  rw [signBit_eq] at hn
  rw [ofNatBits, if_neg Bool.false_ne_true, UInt64.toNat_ofNat_of_lt' (by rw [UInt64.size]; omega)]

theorem neg_ofNatBits {n : Nat} (hn : n < signBit) :
    (ofNatBits false n).neg = ofNatBits true n := by
  rw [neg, isNegative, toNat_ofNatBits hn, Nat.mod_eq_of_lt hn, decide_eq_false (Nat.not_le.mpr hn),
    Bool.not_false]

theorem isNaN_ofNatBits {n : Nat} (hn : n < 2047 * hiddenBit) :
    (ofNatBits false n).isNaN = false := by
  have hsign : n < signBit := by rw [hiddenBit_eq] at hn; rw [signBit_eq]; omega
  have hbiased : n / hiddenBit % 2048 ≠ 2047 := by rw [hiddenBit_eq] at hn ⊢; omega
  rw [isNaN, beq_eq_false_iff_ne, parts, toNat_ofNatBits hsign]
  rw [if_neg hbiased]
  split_ifs <;> exact Parts.noConfusion

/-! ## Rounding to a natural number -/

/-- Numbers up to a half away are rounded; at a half, to the even side. -/
theorem roundDiv_eq (hden : 0 < den) (hlow : (m : ℚ) - 1 / 2 ≤ num / den)
    (hhigh : (num : ℚ) / den ≤ m + 1 / 2)
    (htie : m % 2 = 1 → (m : ℚ) - 1 / 2 < num / den ∧ (num : ℚ) / den < m + 1 / 2) :
    roundDiv num den = m := by
  have hpos : (0 : ℚ) < den := by exact_mod_cast hden
  have hlow' : 2 * (m * den) ≤ 2 * num + den := by
    rw [le_div_iff₀ hpos] at hlow
    have : 2 * ((m : ℚ) * den) ≤ 2 * num + den := by linarith
    exact_mod_cast this
  have hhigh' : 2 * num ≤ 2 * (m * den) + den := by
    rw [div_le_iff₀ hpos] at hhigh
    have : 2 * (num : ℚ) ≤ 2 * (m * den) + den := by linarith
    exact_mod_cast this
  have htie' : m % 2 = 1 → 2 * (m * den) < 2 * num + den ∧ 2 * num < 2 * (m * den) + den := by
    intro hm
    obtain ⟨hl, hh⟩ := htie hm
    rw [lt_div_iff₀ hpos] at hl
    rw [div_lt_iff₀ hpos] at hh
    have hl' : 2 * ((m : ℚ) * den) < 2 * num + den := by linarith
    have hh' : 2 * (num : ℚ) < 2 * (m * den) + den := by linarith
    exact ⟨by exact_mod_cast hl', by exact_mod_cast hh'⟩
  have hdiv := Nat.div_add_mod num den
  have hmod := Nat.mod_lt num hden
  rw [Nat.mul_comm] at hdiv
  -- The quotient is the number or its predecessor.
  obtain hq | hq : num / den = m ∨ num / den + 1 = m := by
    have hle : num / den < m + 1 := by
      rw [Nat.div_lt_iff_lt_mul hden, Nat.add_mul]
      omega
    have hge : m ≤ num / den + 1 := by
      rw [← Nat.add_div_right num hden, Nat.le_div_iff_mul_le hden]
      omega
    omega
  · rw [hq] at hdiv
    rw [roundDiv, hq]
    split_ifs <;> omega
  · have hmul : m * den = num / den * den + den := by rw [← hq, Nat.add_mul, Nat.one_mul]
    rw [roundDiv]
    split_ifs <;> omega

/-! ## The exponent -/

theorem zpow_add_two (a b : Int) : (2 : ℚ) ^ (a + b) = 2 ^ a * 2 ^ b := zpow_add₀ (by norm_num) a b

theorem zpow_pos_two (q : Int) : (0 : ℚ) < 2 ^ q := zpow_pos (by norm_num) q

/-- A whole power of two, as a quotient of powers. -/
theorem zpow_eq_div (q : Int) : (2 : ℚ) ^ q = 2 ^ q.toNat / 2 ^ (-q).toNat := by
  obtain ⟨n, rfl | rfl⟩ := q.eq_nat_or_neg
  · simp
  · simp

/-- A quotient over a power of two is a quotient of naturals. -/
theorem div_zpow (num den : Nat) (q : Int) :
    (num : ℚ) / den / 2 ^ q =
      ((num * Nat.pow 2 (-q).toNat : Nat) : ℚ) / (den * Nat.pow 2 q.toNat : Nat) := by
  rw [zpow_eq_div q]
  push_cast [Nat.pow_eq]
  field_simp

/-- Powers of two below a quotient, in naturals. -/
theorem zpow_le_div_iff (hden : 0 < den) (q : Int) :
    (2 : ℚ) ^ (52 + q) ≤ num / den ↔ den * 2 ^ 52 * 2 ^ q.toNat ≤ num * 2 ^ (-q).toNat := by
  have hpos : (0 : ℚ) < den := by exact_mod_cast hden
  have hpow : (0 : ℚ) < 2 ^ (-q).toNat := by positivity
  have hfifty : (2 : ℚ) ^ (52 : Int) = 2 ^ 52 := by norm_cast
  rw [zpow_add_two, zpow_eq_div q, hfifty, mul_div_assoc', div_le_div_iff₀ hpow hpos]
  have hcomm : (2 : ℚ) ^ 52 * 2 ^ q.toNat * den = den * 2 ^ 52 * 2 ^ q.toNat := by ring
  rw [hcomm]
  norm_cast

/-- Where the first place of a quotient lies. -/
theorem log2_div (hnum : 0 < num) (hden : 0 < den) :
    (2 : ℚ) ^ ((num.log2 : Int) - den.log2 - 1) < num / den ∧
      (num : ℚ) / den < 2 ^ ((num.log2 : Int) - den.log2 + 1) := by
  have hpos : (0 : ℚ) < den := by exact_mod_cast hden
  have hnumLow : (2 : ℚ) ^ num.log2 ≤ num := by exact_mod_cast Nat.log2_self_le hnum.ne'
  have hdenLow : (2 : ℚ) ^ den.log2 ≤ den := by exact_mod_cast Nat.log2_self_le hden.ne'
  have hnumHigh : (num : ℚ) < 2 ^ (num.log2 + 1) := by exact_mod_cast Nat.lt_log2_self
  have hdenHigh : (den : ℚ) < 2 ^ (den.log2 + 1) := by exact_mod_cast Nat.lt_log2_self
  constructor
  · have hsplit : (num.log2 : Int) - den.log2 - 1 = num.log2 - (den.log2 + 1 : Nat) := by
      push_cast; ring
    rw [hsplit, zpow_sub₀ (by norm_num), zpow_natCast, zpow_natCast,
      div_lt_div_iff₀ (by positivity) hpos]
    calc (2 : ℚ) ^ num.log2 * den < 2 ^ num.log2 * 2 ^ (den.log2 + 1) :=
          mul_lt_mul_of_pos_left hdenHigh (by positivity)
      _ ≤ num * 2 ^ (den.log2 + 1) := mul_le_mul_of_nonneg_right hnumLow (by positivity)
  · have hsplit : (num.log2 : Int) - den.log2 + 1 = (num.log2 + 1 : Nat) - den.log2 := by
      push_cast; ring
    rw [hsplit, zpow_sub₀ (by norm_num), zpow_natCast, zpow_natCast,
      div_lt_div_iff₀ hpos (by positivity)]
    calc (num : ℚ) * 2 ^ den.log2 < 2 ^ (num.log2 + 1) * 2 ^ den.log2 :=
          mul_lt_mul_of_pos_right hnumHigh (by positivity)
      _ ≤ 2 ^ (num.log2 + 1) * den := mul_le_mul_of_nonneg_left hdenLow (by positivity)

/-- The quotient lies between the first two significands of 53 bits and above, unless the exponent
is the least. -/
theorem exponentFor_spec (hnum : 0 < num) (hden : 0 < den) :
    ∃ e : Int, (2 : ℚ) ^ (52 + e) ≤ num / den ∧ (num : ℚ) / den < 2 ^ (53 + e) ∧
      exponentFor num den = max minExponent e := by
  obtain ⟨hlow, hhigh⟩ := log2_div hnum hden
  rw [exponentFor]
  generalize hguess : (num.log2 : Int) - (den.log2 : Int) - 52 = guess
  have hfits : (if 0 ≤ guess then decide (den * Nat.pow 2 (52 + guess.toNat) ≤ num)
      else decide (den * Nat.pow 2 52 ≤ num * Nat.pow 2 (-guess).toNat)) = true ↔
        (2 : ℚ) ^ (52 + guess) ≤ num / den := by
    rw [zpow_le_div_iff hden]
    split_ifs with h
    · have hneg : (-guess).toNat = 0 := by omega
      simp only [decide_eq_true_eq, Nat.pow_eq, hneg, pow_zero, mul_one, pow_add, mul_assoc]
    · have htoNat : guess.toNat = 0 := by omega
      simp only [decide_eq_true_eq, Nat.pow_eq, htoNat, pow_zero, mul_one]
  by_cases hle : (2 : ℚ) ^ (52 + guess) ≤ num / den
  · refine ⟨guess, hle, ?_, ?_⟩
    · have hexp : 53 + guess = (num.log2 : Int) - den.log2 + 1 := by omega
      rw [hexp]
      exact hhigh
    · rw [if_pos (hfits.mpr hle)]
  · refine ⟨guess - 1, ?_, ?_, ?_⟩
    · have hexp : 52 + (guess - 1) = (num.log2 : Int) - den.log2 - 1 := by omega
      rw [hexp]
      exact le_of_lt hlow
    · have hexp : 53 + (guess - 1) = 52 + guess := by omega
      rw [hexp]
      exact not_le.mp hle
    · rw [if_neg (mt hfits.mp hle)]

/-- The exponent of a number with a significand of 53 bits. -/
theorem exponentFor_eq (hnum : 0 < num) (hden : 0 < den) (hq : minExponent ≤ q)
    (hlow : (2 : ℚ) ^ (52 + q) ≤ num / den) (hhigh : (num : ℚ) / den < 2 ^ (53 + q)) :
    exponentFor num den = q := by
  obtain ⟨e, helow, hehigh, he⟩ := exponentFor_spec hnum hden
  have hqe : 52 + q < 53 + e := (zpow_lt_zpow_iff_right₀ (by norm_num)).mp (hlow.trans_lt hehigh)
  have heq : 52 + e < 53 + q := (zpow_lt_zpow_iff_right₀ (by norm_num)).mp (helow.trans_lt hhigh)
  rw [he]
  omega

/-- The least exponent is that of small numbers. -/
theorem exponentFor_least (hnum : 0 < num) (hden : 0 < den)
    (hhigh : (num : ℚ) / den < 2 ^ (53 + minExponent)) : exponentFor num den = minExponent := by
  obtain ⟨e, helow, -, he⟩ := exponentFor_spec hnum hden
  have heq : 52 + e < 53 + minExponent :=
    (zpow_lt_zpow_iff_right₀ (by norm_num)).mp (helow.trans_lt hhigh)
  rw [he]
  omega

/-! ## The nearest double -/

/-- How far the cell of a double reaches down, in its last place. -/
def below (m : Nat) (q : Int) : ℚ := if m = hiddenBit ∧ minExponent < q then 1 / 4 else 1 / 2

/-- The numbers that round to the double `m · 2 ^ q`. -/
structure Cell (m : Nat) (q : Int) (v : ℚ) : Prop where
  ge : (m - below m q) * 2 ^ q ≤ v
  le : v ≤ (m + 1 / 2) * 2 ^ q
  inside : m % 2 = 1 → (m - below m q) * 2 ^ q < v ∧ v < (m + 1 / 2) * 2 ^ q

/-- `nearest`, with the exponent and the significand that are found. -/
theorem nearest_eq (hnum : 0 < num) (hden : 0 < den)
    {q : Int} {k : Nat} (hq : exponentFor num den = q)
    (hk : roundDiv (num * Nat.pow 2 (-q).toNat) (den * Nat.pow 2 q.toNat) = k) :
    nearest negative num den =
      if k < 2 * hiddenBit then
        if k < hiddenBit then ofNatBits negative k
        else if 2047 ≤ (q + 1075).toNat then infinity negative
        else ofNatBits negative ((q + 1075).toNat * hiddenBit + (k - hiddenBit))
      else
        if k / 2 < hiddenBit then ofNatBits negative (k / 2)
        else if 2047 ≤ (q + 1 + 1075).toNat then infinity negative
        else ofNatBits negative ((q + 1 + 1075).toNat * hiddenBit + (k / 2 - hiddenBit)) := by
  have hm : (if 0 ≤ q then roundDiv num (den * Nat.pow 2 q.toNat)
      else roundDiv (num * Nat.pow 2 (-q).toNat) den) = k := by
    rw [← hk]
    split_ifs with h
    · have hneg : (-q).toNat = 0 := by omega
      simp only [hneg, Nat.pow_eq, pow_zero, mul_one]
    · have htoNat : q.toNat = 0 := by omega
      simp only [htoNat, Nat.pow_eq, pow_zero, mul_one]
  rw [nearest, if_neg (by omega)]
  simp only [hq, hm, decide_eq_true_eq]
  by_cases h : 2 * hiddenBit ≤ k
  · simp only [h, if_true, Nat.not_lt.mpr h, if_false]
  · simp only [h, if_false, Nat.lt_of_not_le h, if_true]

theorem below_le (m : Nat) (q : Int) : below m q ≤ 1 / 2 := by
  rw [below]
  split_ifs <;> norm_num

/-- The significand at the double's own exponent. -/
theorem Cell.roundDiv_eq (hden : 0 < den) (h : Cell m q (num / den)) :
    roundDiv (num * Nat.pow 2 (-q).toNat) (den * Nat.pow 2 q.toNat) = m := by
  have hpow := zpow_pos_two q
  have hbelow : ((m : ℚ) - 1 / 2) * 2 ^ q ≤ (m - below m q) * 2 ^ q :=
    mul_le_mul_of_nonneg_right (by linarith [below_le m q]) hpow.le
  refine Binary64.roundDiv_eq (Nat.mul_pos hden (Nat.pow_pos (by decide))) ?_ ?_ fun hm => ?_
  · rw [← div_zpow, le_div_iff₀ hpow]
    exact hbelow.trans h.ge
  · rw [← div_zpow, div_le_iff₀ hpow]
    exact h.le
  · rw [← div_zpow, lt_div_iff₀ hpow, div_lt_iff₀ hpow]
    obtain ⟨hlow, hhigh⟩ := h.inside hm
    exact ⟨hbelow.trans_lt hlow, hhigh⟩

/-- The double is found where its own exponent is. -/
theorem Cell.nearest_of_exponent (hfits : Fits m q) (hnum : 0 < num) (hden : 0 < den)
    (h : Cell m q (num / den)) (hq : exponentFor num den = q) :
    nearest negative num den = ofNatBits negative (bitsOf m q) := by
  rw [nearest_eq hnum hden hq (h.roundDiv_eq hden), if_pos hfits.lt, bitsOf]
  have hlt : ¬ 2047 ≤ (q + 1075).toNat := by have := hfits.le_maxExponent; omega
  rw [if_neg hlt]
  split_ifs <;> rfl

/-- A number just below a power of two is rounded up to it from the exponent before. -/
theorem Cell.nearest_of_carry (hq : minExponent < q) (hmax : q ≤ 971) (hnum : 0 < num)
    (hden : 0 < den) (h : Cell hiddenBit q (num / den)) (hlt : (num : ℚ) / den < 2 ^ (52 + q)) :
    nearest negative num den = ofNatBits negative (bitsOf hiddenBit q) := by
  have hpow := zpow_pos_two (q - 1)
  have hdouble : (2 : ℚ) ^ q = 2 * 2 ^ (q - 1) := by
    rw [← zpow_one_add₀ (by norm_num), show 1 + (q - 1) = q by omega]
  have hfifty : (2 : ℚ) ^ (52 : Int) = hiddenBit := by rw [hiddenBit_eq]; norm_num
  have hlow : (2 * (hiddenBit : ℚ) - 1 / 2) * 2 ^ (q - 1) ≤ num / den := by
    have hge := h.ge
    rw [below, if_pos ⟨rfl, hq⟩, hdouble] at hge
    have hsame : (2 * (hiddenBit : ℚ) - 1 / 2) * 2 ^ (q - 1) =
        (hiddenBit - 1 / 4) * (2 * 2 ^ (q - 1)) := by ring
    rw [hsame]
    exact hge
  have hhigh : (num : ℚ) / den < 2 * hiddenBit * 2 ^ (q - 1) := by
    rw [zpow_add_two, hdouble, hfifty] at hlt
    linarith
  have hexponent : exponentFor num den = q - 1 := by
    refine exponentFor_eq hnum hden (by omega) ?_ ?_
    · rw [zpow_add_two, hfifty]
      refine le_trans (mul_le_mul_of_nonneg_right ?_ hpow.le) hlow
      rw [hiddenBit_eq]
      norm_num
    · rw [show 53 + (q - 1) = 52 + q by omega]
      exact hlt
  have hround : roundDiv (num * Nat.pow 2 (-(q - 1)).toNat) (den * Nat.pow 2 (q - 1).toNat) =
      2 * hiddenBit := by
    refine Binary64.roundDiv_eq (Nat.mul_pos hden (Nat.pow_pos (by decide))) ?_ ?_ fun hm => ?_
    · rw [← div_zpow, le_div_iff₀ hpow]
      push_cast
      exact hlow
    · rw [← div_zpow, div_le_iff₀ hpow]
      push_cast
      linarith
    · omega
  have hhalf : 2 * hiddenBit / 2 = hiddenBit := by omega
  have hfinite : ¬ 2047 ≤ (q - 1 + 1 + 1075).toNat := by omega
  rw [nearest_eq hnum hden hexponent hround, if_neg (Nat.lt_irrefl _), hhalf,
    if_neg (Nat.lt_irrefl _),
    if_neg hfinite, bitsOf, if_neg (Nat.lt_irrefl _), show q - 1 + 1 = q by omega]

/-- A number rounds to the double whose cell it lies in. -/
theorem nearest_of_cell (hfits : Fits m q) (hnum : 0 < num) (hden : 0 < den)
    (h : Cell m q (num / den)) :
    nearest negative num den = ofNatBits negative (bitsOf m q) := by
  have hpow := zpow_pos_two q
  have hfifty : (2 : ℚ) ^ (52 : Int) = hiddenBit := by rw [hiddenBit_eq]; norm_num
  have hhigh : (num : ℚ) / den < 2 ^ (53 + q) := by
    have hm : (m : ℚ) + 1 ≤ 2 * hiddenBit := by exact_mod_cast hfits.lt
    rw [show 53 + q = 1 + (52 + q) by omega, zpow_one_add₀ (by norm_num), zpow_add_two, hfifty]
    have hlt : ((m : ℚ) + 1 / 2) * 2 ^ q < 2 * hiddenBit * 2 ^ q :=
      mul_lt_mul_of_pos_right (by linarith) hpow
    linarith [h.le]
  obtain hq | hq := hfits.minExponent_le.eq_or_lt
  · subst hq
    exact h.nearest_of_exponent hfits hnum hden (exponentFor_least hnum hden hhigh)
  · have hm := hfits.hiddenBit_le hq
    by_cases hlow : (2 : ℚ) ^ (52 + q) ≤ num / den
    · exact h.nearest_of_exponent hfits hnum hden (exponentFor_eq hnum hden hq.le hlow hhigh)
    · -- Only the cell of a power of two reaches below it.
      obtain rfl | hm := hm.eq_or_lt
      · exact h.nearest_of_carry hq hfits.le_maxExponent hnum hden (not_le.mp hlow)
      · refine absurd ?_ hlow
        have hm' : (hiddenBit : ℚ) + 1 ≤ m := by exact_mod_cast hm
        rw [zpow_add_two, hfifty]
        refine le_trans (mul_le_mul_of_nonneg_right ?_ hpow.le) h.ge
        linarith [below_le m q]

end Binary64

end StepLoom
