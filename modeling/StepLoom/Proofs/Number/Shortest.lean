import StepLoom.Number.Shortest
import StepLoom.Proofs.Number.Decimal
import Mathlib.Tactic.GCongr

/-!
# The shortest text reads back

The search for the shortest digits ends before its fuel does, since a grid of eighteen digits is
finer than any cell (`onGrid_eighteen`), and what it finds lies in the cell of the double
(`cell_of_onGrid`). So the digits of a double, laid out in whatever form, are read as the same
double (`gives_shortest`, `ofDecimal_of_cell`).
-/

namespace StepLoom

namespace Binary64

variable {num den m n d k fuel : Nat} {q e point : Int} {v : ℚ} {i : Interval}

/-! ## The place of the first digit -/

theorem zpow_ten_eq_div (e : Int) : (10 : ℚ) ^ e = 10 ^ e.toNat / 10 ^ (-e).toNat := by
  obtain ⟨n, rfl | rfl⟩ := e.eq_nat_or_neg
  · simp
  · simp

theorem leadingZeros_spec (hnum : 0 < num) (hden : 0 < den) (h : den ≤ num * 10 ^ fuel) :
    (10 : ℚ) ^ (leadingZeros fuel num den - 1) ≤ num / den := by
  have hpos : (0 : ℚ) < den := by exact_mod_cast hden
  induction fuel generalizing num with
  | zero =>
    rw [leadingZeros, le_div_iff₀ hpos]
    have hle : (den : ℚ) ≤ num := by exact_mod_cast (by simpa using h)
    norm_num
    linarith
  | succ fuel ih =>
    rw [leadingZeros]
    split_ifs with hten
    · rw [le_div_iff₀ hpos]
      have hle : (den : ℚ) ≤ num * 10 := by exact_mod_cast hten
      norm_num
      linarith
    · have hfuel : den ≤ num * 10 * 10 ^ fuel := by
        rw [Nat.mul_assoc, ← Nat.pow_succ']
        exact h
      have hih := ih (show 0 < num * 10 by omega) hfuel
      rw [show leadingZeros fuel (num * 10) den - 1 - 1 =
        -1 + (leadingZeros fuel (num * 10) den - 1) by omega,
        zpow_add_ten]
      push_cast at hih
      rw [le_div_iff₀ hpos] at hih ⊢
      norm_num
      linarith

/-- The value is at least one at its first place. -/
theorem pointOf_spec (hnum : 0 < num) (hden : 0 < den) (h : den ≤ num * 10 ^ 400) :
    (10 : ℚ) ^ (pointOf num den - 1) ≤ num / den := by
  rw [pointOf]
  split_ifs with hle
  · have hpos : 0 < num / den := Nat.div_pos hle hden
    have hlength := Nat.length_toDigits_pos (b := 10) (n := num / den)
    obtain ⟨l, hl⟩ : ∃ l, (Nat.toDigits 10 (num / den)).length = l + 1 :=
      ⟨_, (Nat.succ_pred_eq_of_pos hlength).symm⟩
    have hdigits := le_of_length_toDigits hpos
    rw [hl, Nat.add_sub_cancel] at hdigits
    rw [hl, Nat.cast_add, Nat.cast_one, add_sub_cancel_right, zpow_natCast]
    rw [le_div_iff₀ (by exact_mod_cast hden)]
    have hmul : 10 ^ l * den ≤ num :=
      (Nat.mul_le_mul_right den hdigits).trans (Nat.div_mul_le_self num den)
    exact_mod_cast hmul
  · exact leadingZeros_spec hnum hden h

/-! ## The interval -/

/-- The ends and the value of the interval, over its denominator. -/
structure Interval.Spans (i : Interval) (m : Nat) (q : Int) : Prop where
  den_pos : 0 < i.den
  low : (i.low : ℚ) = (m - below m q) * 2 ^ q * i.den
  value : (i.value : ℚ) = m * 2 ^ q * i.den
  high : (i.high : ℚ) = (m + 1 / 2) * 2 ^ q * i.den
  closed : i.closed = decide (m % 2 = 0)

/-- A quarter of the last place is the scale over the denominator. -/
theorem quarter_eq (q : Int) :
    ((if 2 ≤ q then Nat.pow 2 (q - 2).toNat else 1 : Nat) : ℚ) =
      2 ^ q / 4 * (if 2 ≤ q then 1 else Nat.pow 2 (2 - q).toNat : Nat) := by
  have hquarter : (2 : ℚ) ^ q / 4 = 2 ^ (q - 2) := by
    rw [zpow_sub₀ (by norm_num)]
    norm_num
  rw [hquarter]
  split_ifs with h
  · obtain ⟨k, hk⟩ := Int.eq_ofNat_of_zero_le (show 0 ≤ q - 2 by omega)
    simp [hk]
  · obtain ⟨k, hk⟩ := Int.eq_ofNat_of_zero_le (show 0 ≤ 2 - q by omega)
    have hneg : q - 2 = -(k : Int) := by omega
    simp [hk, hneg]

theorem spans (hm : 0 < m) (q : Int) : (Interval.of m q).Spans m q := by
  have hbelow : ((4 * m - if m = hiddenBit ∧ minExponent < q then 1 else 2 : Nat) : ℚ) =
    4 * (m - below m q) := by
    rw [below]
    split_ifs
    · rw [Nat.cast_sub (by omega)]
      push_cast
      ring
    · rw [Nat.cast_sub (by omega)]
      push_cast
      ring
  have hquarter := quarter_eq q
  refine ⟨?_, ?_, ?_, ?_, rfl⟩
  · simp only [Interval.of]
    split_ifs
    · exact Nat.one_pos
    · exact Nat.pow_pos (by decide)
  · simp only [Interval.of]
    rw [Nat.cast_mul, hbelow, hquarter]
    ring
  · simp only [Interval.of]
    rw [Nat.cast_mul, hquarter]
    push_cast
    ring
  · simp only [Interval.of]
    rw [Nat.cast_mul, hquarter]
    push_cast
    ring

/-- A number inside the interval lies in the cell. -/
theorem Interval.Spans.cell (h : i.Spans m q) (hn : i.contains n) : Cell m q (n / i.den) := by
  have hpos : (0 : ℚ) < i.den := by exact_mod_cast h.den_pos
  have hiff : (i.low ≤ n ↔ (m - below m q) * 2 ^ q ≤ (n : ℚ) / i.den) ∧
      (n ≤ i.high ↔ (n : ℚ) / i.den ≤ (m + 1 / 2) * 2 ^ q) := by
    rw [le_div_iff₀ hpos, div_le_iff₀ hpos, ← h.low, ← h.high, Nat.cast_le, Nat.cast_le]
    exact ⟨Iff.rfl, Iff.rfl⟩
  have hiff' : (i.low < n ↔ (m - below m q) * 2 ^ q < (n : ℚ) / i.den) ∧
      (n < i.high ↔ (n : ℚ) / i.den < (m + 1 / 2) * 2 ^ q) := by
    rw [lt_div_iff₀ hpos, div_lt_iff₀ hpos, ← h.low, ← h.high, Nat.cast_lt, Nat.cast_lt]
    exact ⟨Iff.rfl, Iff.rfl⟩
  rw [Interval.contains, h.closed] at hn
  simp only [decide_eq_true_eq] at hn
  split_ifs at hn with heven
  · rw [decide_eq_true_eq] at hn
    exact ⟨hiff.1.mp hn.1, hiff.2.mp hn.2, fun hodd => by omega⟩
  · rw [decide_eq_true_eq] at hn
    exact ⟨(hiff'.1.mp hn.1).le, (hiff'.2.mp hn.2).le, fun _ => ⟨hiff'.1.mp hn.1, hiff'.2.mp hn.2⟩⟩

/-! ## The grids -/

/-- The interval with another denominator. -/
def Interval.times (i : Interval) (k : Nat) : Interval :=
  { i with low := i.low * k, value := i.value * k, high := i.high * k, den := i.den * k }

theorem Interval.Spans.times (h : i.Spans m q) (hk : 0 < k) : (i.times k).Spans m q where
  den_pos := Nat.mul_pos h.den_pos hk
  low := by rw [Interval.times, Nat.cast_mul, Nat.cast_mul, h.low, mul_assoc]
  value := by rw [Interval.times, Nat.cast_mul, Nat.cast_mul, h.value, mul_assoc]
  high := by rw [Interval.times, Nat.cast_mul, Nat.cast_mul, h.high, mul_assoc]
  closed := h.closed

/-- The numerators are multiplied so that the points of the grid are whole. -/
def gridUp (point : Int) (n : Nat) : Nat := 10 ^ (-(point - n)).toNat

/-- The distance of the points of the grid. -/
def gridUnit (i : Interval) (point : Int) (n : Nat) : Nat := 10 ^ (point - n).toNat * i.den

theorem onGrid_eq (i : Interval) (point : Int) (n : Nat) : i.onGrid point n =
    (let unit := gridUnit i point n
     let d := i.value * gridUp point n / unit
     match (i.times (gridUp point n)).contains (d * unit),
       (i.times (gridUp point n)).contains ((d + 1) * unit) with
     | false, false => none
     | true, false => some d
     | false, true => some (d + 1)
     | true, true =>
       let gap := i.value * gridUp point n - d * unit
       let gapNext := (d + 1) * unit - i.value * gridUp point n
       if gap < gapNext then some d
       else if gapNext < gap then some (d + 1)
       else some (d + d % 2)) := by
  have hup : (if point - n < 0 then Nat.pow 10 (-(point - n)).toNat else 1) = gridUp point n := by
    rw [gridUp]
    split_ifs with h
    · rfl
    · rw [show (-(point - (n : Int))).toNat = 0 by omega, Nat.pow_zero]
  have hunit : (if 0 ≤ point - n then Nat.pow 10 (point - n).toNat else 1) * i.den =
    gridUnit i point n := by
    rw [gridUnit]
    split_ifs with h
    · rfl
    · rw [show (point - (n : Int)).toNat = 0 by omega, Nat.pow_zero]
  rw [Interval.onGrid]
  simp only [hup, hunit]
  rfl

/-- What is found on a grid lies inside the interval. -/
theorem contains_of_onGrid (h : i.onGrid point n = some d) :
    (i.times (gridUp point n)).contains (d * gridUnit i point n) := by
  rw [onGrid_eq] at h
  dsimp only at h
  generalize hd : i.value * gridUp point n / gridUnit i point n = first at h
  have hlast : d = first ∨ d = first + 1 → (i.times (gridUp point n)).contains
    (first * gridUnit i point n) = true →
      (i.times (gridUp point n)).contains ((first + 1) * gridUnit i point n) = true →
      (i.times (gridUp point n)).contains (d * gridUnit i point n) := by
    rintro (rfl | rfl) hfirst hnext
    · exact hfirst
    · exact hnext
  split at h
  · cases h
  · next hfirst _ => cases h; exact hfirst
  · next _ hnext => cases h; exact hnext
  · next hfirst hnext =>
    refine hlast ?_ hfirst hnext
    split_ifs at h
    · cases h; exact Or.inl rfl
    · cases h; exact Or.inr rfl
    · cases h; omega

/-- A grid whose point below the value lies inside the interval is not passed over. -/
theorem onGrid_isSome (h : (i.times (gridUp point n)).contains
      (i.value * gridUp point n / gridUnit i point n * gridUnit i point n)) :
    ∃ d, i.onGrid point n = some d := by
  rw [onGrid_eq]
  dsimp only
  rw [h]
  split
  · next heq _ => cases heq
  · exact ⟨_, rfl⟩
  · next heq _ => cases heq
  · split_ifs <;> exact ⟨_, rfl⟩

/-- A point of a grid, as a decimal number. -/
theorem grid_div (hden : 0 < i.den) (point : Int) (n d : Nat) :
    ((d * gridUnit i point n : Nat) : ℚ) / (i.times (gridUp point n)).den =
      d * 10 ^ (point - n) := by
  have hpos : (i.den : ℚ) ≠ 0 := by exact_mod_cast hden.ne'
  rw [zpow_ten_eq_div, gridUnit, Interval.times, gridUp]
  push_cast
  field_simp

theorem gridUp_pos (point : Int) (n : Nat) : 0 < gridUp point n := Nat.pow_pos (by decide)

theorem cell_of_onGrid (hi : i.Spans m q) (h : i.onGrid point n = some d) :
    Cell m q (d * 10 ^ (point - n)) := by
  rw [← grid_div hi.den_pos]
  exact (hi.times (gridUp_pos point n)).cell (contains_of_onGrid h)

theorem le_below (m : Nat) (q : Int) : 1 / 4 ≤ below m q := by
  rw [below]
  split_ifs <;> norm_num

theorem Interval.contains_of_lt (hlow : i.low < n) (hhigh : n < i.high) : i.contains n := by
  rw [Interval.contains]
  split_ifs
  · exact decide_eq_true ⟨hlow.le, hhigh.le⟩
  · exact decide_eq_true ⟨hlow, hhigh⟩

/-- A grid of eighteen digits is finer than the cell. -/
theorem onGrid_eighteen (hm : m < 2 * hiddenBit) (hi : i.Spans m q)
    (hpoint : (10 : ℚ) ^ (point - 1) ≤ m * 2 ^ q) : ∃ d, i.onGrid point 18 = some d := by
  apply onGrid_isSome
  have hspan := hi.times (gridUp_pos point 18)
  have hpow := zpow_pos_two q
  have hden : (0 : ℚ) < (i.times (gridUp point 18)).den := by exact_mod_cast hspan.den_pos
  have hunit : ((gridUnit i point 18 : Nat) : ℚ) =
      10 ^ (point - 1) / 10 ^ 17 * (i.times (gridUp point 18)).den := by
    have hone := grid_div hi.den_pos point 18 1
    rw [div_eq_iff hden.ne', Nat.one_mul, Nat.cast_one, one_mul] at hone
    have hseventeen : (10 : ℚ) ^ (-17 : Int) = 1 / 10 ^ 17 := by norm_num
    rw [hone, show point - ((18 : Nat) : Int) = -17 + (point - 1) by omega, zpow_add_ten,
      hseventeen]
    ring
  have hvalue : (i.times (gridUp point 18)).value = i.value * gridUp point 18 := rfl
  have hunitPos : 0 < gridUnit i point 18 := Nat.mul_pos (Nat.pow_pos (by decide)) hi.den_pos
  generalize i.times (gridUp point 18) = j at *
  rw [← hvalue]
  have hfloor : j.value / gridUnit i point 18 * gridUnit i point 18 ≤ j.value :=
    Nat.div_mul_le_self ..
  have hnext :
      j.value < j.value / gridUnit i point 18 * gridUnit i point 18 + gridUnit i point 18 :=
    Nat.lt_div_mul_add hunitPos
  apply Interval.contains_of_lt
  · suffices h : j.low + gridUnit i point 18 ≤ j.value by omega
    have hsmall : (m : ℚ) / 10 ^ 17 ≤ below m q := by
      have hm' : (m : ℚ) ≤ 2 * hiddenBit := by exact_mod_cast hm.le
      rw [hiddenBit_eq] at hm'
      refine le_trans ?_ (le_below m q)
      rw [div_le_iff₀ (by positivity)]
      norm_num at hm' ⊢
      linarith
    have hle : (j.low : ℚ) + gridUnit i point 18 ≤ j.value := by
      rw [hunit, hspan.low, hspan.value, ← add_mul]
      refine mul_le_mul_of_nonneg_right ?_ hden.le
      calc ((m : ℚ) - below m q) * 2 ^ q + 10 ^ (point - 1) / 10 ^ 17
          ≤ (m - below m q) * 2 ^ q + m * 2 ^ q / 10 ^ 17 := by gcongr
        _ = (m - below m q + m / 10 ^ 17) * 2 ^ q := by ring
        _ ≤ m * 2 ^ q := mul_le_mul_of_nonneg_right (by linarith) hpow.le
    exact_mod_cast hle
  · refine lt_of_le_of_lt hfloor ?_
    have hlt : (j.value : ℚ) < j.high := by
      rw [hspan.value, hspan.high]
      exact mul_lt_mul_of_pos_right (mul_lt_mul_of_pos_right (by linarith) hpow) hden
    exact_mod_cast hlt

/-! ## The search -/

theorem search_spec (h : ∃ j < fuel, ∃ d, i.onGrid point (n + j) = some d) :
    i.onGrid point (i.search point fuel n).2 = some (i.search point fuel n).1 := by
  induction fuel generalizing n with
  | zero =>
    obtain ⟨j, hj, -⟩ := h
    omega
  | succ fuel ih =>
    rw [Interval.search]
    split
    · next d hd => exact hd
    · next hnone =>
      refine ih ?_
      obtain ⟨j, hj, d, hd⟩ := h
      obtain ⟨j, rfl⟩ : ∃ j', j = j' + 1 := by
        refine ⟨j - 1, (Nat.succ_pred_eq_of_pos (Nat.pos_of_ne_zero ?_)).symm⟩
        rintro rfl
        rw [Nat.add_zero, hnone] at hd
        cases hd
      exact ⟨j, by omega, d, by rw [Nat.add_right_comm]; exact hd⟩

/-! ## The digits -/

theorem cell_self (m : Nat) (q : Int) : Cell m q (m * 2 ^ q) := by
  have hpow := zpow_pos_two q
  have hbelow := le_below m q
  have hlow : ((m : ℚ) - below m q) * 2 ^ q < m * 2 ^ q :=
    mul_lt_mul_of_pos_right (by linarith) hpow
  have hhigh : (m : ℚ) * 2 ^ q < (m + 1 / 2) * 2 ^ q := mul_lt_mul_of_pos_right (by linarith) hpow
  exact ⟨hlow.le, hhigh.le, fun _ => ⟨hlow, hhigh⟩⟩

theorem Cell.pos (hm : 0 < m) (h : Cell m q v) : 0 < v := by
  have hm' : (1 : ℚ) ≤ m := by exact_mod_cast hm
  exact lt_of_lt_of_le (mul_pos (by linarith [below_le m q]) (zpow_pos_two q)) h.ge

/-- The digits name a number of the cell. -/
structure Digits.Names (ds : Digits) (m : Nat) (q : Int) : Prop where
  isDigit : ∀ c ∈ ds.digits, c.isDigit
  ne_nil : ds.digits ≠ []
  cell : Cell m q (digitsValue ds.digits * 10 ^ (ds.point - ds.digits.length))

/-- Zeros at the end of digits. -/
theorem exists_zeros (cs : List Char) :
    ∃ k, cs = (cs.reverse.dropWhile (· = '0')).reverse ++ List.replicate k '0' := by
  refine ⟨(cs.reverse.takeWhile (· = '0')).length, ?_⟩
  have hzeros : (cs.reverse.takeWhile (· = '0')) =
    List.replicate (cs.reverse.takeWhile (· = '0')).length '0' :=
    List.eq_replicate_of_mem fun c hc => by
      simpa using List.all_eq_true.mp List.all_takeWhile c hc
  have hall : cs.reverse.takeWhile (· = '0') ++ cs.reverse.dropWhile (· = '0') = cs.reverse :=
    List.takeWhile_append_dropWhile
  rw [hzeros] at hall
  have hreverse := congrArg List.reverse hall
  rw [List.reverse_append, List.reverse_replicate, List.reverse_reverse] at hreverse
  exact hreverse.symm

theorem names_shortest (hfits : Fits m q) (hm : 0 < m) : (shortest m q).Names m q := by
  have hspans := spans hm q
  have hden : (0 : ℚ) < (Interval.of m q).den := by exact_mod_cast hspans.den_pos
  have hvalue : ((Interval.of m q).value : ℚ) / (Interval.of m q).den = m * 2 ^ q :=
    (div_eq_iff hden.ne').mpr hspans.value
  obtain ⟨hsmall, -⟩ := (cell_self m q).bounds hfits hm
  have hpos : 0 < (Interval.of m q).value := by
    have := (cell_self m q).pos hm
    rw [← hvalue, div_pos_iff_of_pos_right hden] at this
    exact_mod_cast this
  have hpoint : (10 : ℚ) ^ (pointOf (Interval.of m q).value (Interval.of m q).den - 1) ≤
      m * 2 ^ q := by
    rw [← hvalue]
    refine pointOf_spec hpos hspans.den_pos ?_
    rw [← hvalue, lt_div_iff₀ hden, zpow_neg, inv_mul_lt_iff₀ (zpow_pos_ten 400)] at hsmall
    have hle : ((Interval.of m q).den : ℚ) ≤ (Interval.of m q).value * 10 ^ 400 := by
      rw [mul_comm]
      exact_mod_cast hsmall.le
    exact_mod_cast hle
  rw [shortest]
  dsimp only
  generalize pointOf (Interval.of m q).value (Interval.of m q).den = point at *
  have hfound : (Interval.of m q).onGrid point ((Interval.of m q).search point 18 1).2 =
      some ((Interval.of m q).search point 18 1).1 :=
    search_spec ⟨17, by decide, onGrid_eighteen hfits.lt hspans hpoint⟩
  generalize (Interval.of m q).search point 18 1 = found at *
  obtain ⟨d, n⟩ := found
  have hcell := cell_of_onGrid hspans hfound
  dsimp only at hcell ⊢
  obtain ⟨k, hk⟩ := exists_zeros (Nat.toDigits 10 d)
  generalize
    (List.dropWhile (fun x => decide (x = '0')) (Nat.toDigits 10 d).reverse).reverse = digits at *
  have hdigits : ∀ c ∈ digits, c.isDigit :=
    fun c hc => isDigit_of_mem_toDigits (n := d) (by rw [hk]; exact List.mem_append_left _ hc)
  have hd : (d : ℚ) = digitsValue digits * 10 ^ k := by
    have := digitsValue_toDigits d
    rw [hk, digitsValue_append_zeros] at this
    exact_mod_cast this.symm
  refine ⟨hdigits, ?_, ?_⟩
  · rintro rfl
    have := hcell.pos hm
    rw [hd, show digitsValue [] = 0 from rfl] at this
    simp at this
  · have hlength : ((Nat.toDigits 10 d).length : Int) = digits.length + k := by
      conv_lhs => rw [hk]
      simp
    rw [hd, mul_assoc, ← zpow_natCast, ← zpow_add_ten] at hcell
    dsimp only
    rw [hlength, show point + ((digits.length : Int) + k - n) - digits.length =
      k + (point - n) by omega]
    exact hcell

/-! ## The layout -/

/-- The text with a point in front of the exponent, if it has none. -/
def withPoint (cs : List Char) : List Char :=
  if cs.contains '.' || !cs.contains 'e' then cs
  else cs.takeWhile (· ≠ 'e') ++ ['.', '0'] ++ cs.dropWhile (· ≠ 'e')

theorem withPoint_of_mem {cs : List Char} (h : '.' ∈ cs) : withPoint cs = cs := by
  rw [withPoint, List.contains_iff_mem.mpr h, Bool.true_or, if_pos rfl]

theorem withPoint_minus (cs : List Char) : withPoint ('-' :: cs) = '-' :: withPoint cs := by
  have htake : ('-' :: cs).takeWhile (· ≠ 'e') = '-' :: cs.takeWhile (· ≠ 'e') :=
    List.takeWhile_cons_of_pos (by decide)
  have hdrop : ('-' :: cs).dropWhile (· ≠ 'e') = cs.dropWhile (· ≠ 'e') :=
    List.dropWhile_cons_of_pos (by decide)
  rw [withPoint, withPoint, htake, hdrop]
  simp only [List.contains_cons, show ('.' == '-') = false from rfl,
    show ('e' == '-') = false from rfl, Bool.false_or, List.cons_append]
  split_ifs <;> rfl

theorem exponentDigits_spec (n : Nat) :
    exponentDigits n ≠ [] ∧ (∀ c ∈ exponentDigits n, c.isDigit) ∧
      digitsValue (exponentDigits n) = n := by
  have hdigits : ∀ c ∈ Nat.toDigits 10 n, c.isDigit := fun c => isDigit_of_mem_toDigits
  rw [exponentDigits]
  split_ifs
  · refine ⟨List.cons_ne_nil _ _, fun c hc => ?_, ?_⟩
    · obtain rfl | hc := List.mem_cons.mp hc
      · rfl
      · exact hdigits c hc
    · rw [digitsValue_cons_zero, digitsValue_toDigits]
  · exact ⟨List.length_pos_iff.mp Nat.length_toDigits_pos, hdigits, digitsValue_toDigits n⟩

/-- A text that names a number `v`. -/
def Gives (cs : List Char) (v : ℚ) : Prop := ∃ n e, IsDecimal cs n e ∧ (n : ℚ) * 10 ^ e = v

/-- The digits behind a point and zeros. -/
theorem gives_small {ds : List Char} (hds : ∀ c ∈ ds, c.isDigit)
    {point : Int} (hpoint : point ≤ 0) :
    Gives ('0' :: '.' :: (List.replicate (-point).toNat '0' ++ ds))
    (digitsValue ds * 10 ^ (point - ds.length)) := by
  obtain ⟨k, rfl⟩ := Int.exists_eq_neg_ofNat hpoint
  have hfraction : ∀ c ∈ List.replicate k '0' ++ ds, c.isDigit := by
    intro c hc
    obtain hc | hc := List.mem_append.mp hc
    · rw [List.eq_of_mem_replicate hc]
      rfl
    · exact hds c hc
  rw [Int.neg_neg, Int.toNat_natCast]
  have hwhole : ∀ c ∈ ['0'], c.isDigit := List.forall_mem_singleton.mpr rfl
  refine ⟨_, _, IsDecimal.plain (List.cons_ne_nil _ _) hwhole hfraction, ?_⟩
  rw [List.singleton_append, digitsValue_cons_zero, digitsValue_zeros_append, List.length_append,
    List.length_replicate, show -((k + ds.length : Nat) : Int) = -(k : Int) - ds.length by omega]

/-- The digits with zeros up to the point. -/
theorem gives_large {ds : List Char} (hne : ds ≠ []) (hds : ∀ c ∈ ds, c.isDigit) {point : Int}
    (hpoint : (ds.length : Int) ≤ point) :
    Gives (ds ++ List.replicate (point - ds.length).toNat '0' ++ ['.', '0'])
      (digitsValue ds * 10 ^ (point - ds.length)) := by
  obtain ⟨k, hk⟩ := Int.eq_ofNat_of_zero_le (show 0 ≤ point - ds.length by omega)
  have hwhole : ∀ c ∈ ds ++ List.replicate k '0', c.isDigit := by
    intro c hc
    obtain hc | hc := List.mem_append.mp hc
    · exact hds c hc
    · rw [List.eq_of_mem_replicate hc]
      rfl
  rw [hk, Int.toNat_natCast]
  have hfraction : ∀ c ∈ ['0'], c.isDigit := List.forall_mem_singleton.mpr rfl
  refine ⟨_, _, IsDecimal.plain (by simp [hne]) hwhole hfraction, ?_⟩
  rw [List.append_assoc, ← List.replicate_succ', digitsValue_append_zeros, Nat.cast_mul, mul_assoc,
    Nat.cast_pow, ← zpow_natCast, Nat.cast_ofNat, ← zpow_add_ten]
  congr 2
  simp

/-- The point among the digits. -/
theorem gives_between {ds : List Char} (hne : ds ≠ []) (hds : ∀ c ∈ ds, c.isDigit) {point : Int}
    (hpos : 0 < point) (hlt : point < ds.length) :
    Gives (ds.take point.toNat ++ '.' :: ds.drop point.toNat)
    (digitsValue ds * 10 ^ (point - ds.length)) := by
  have htake : ds.take point.toNat ≠ [] := by
    rw [Ne, List.take_eq_nil_iff]
    exact not_or.mpr ⟨by omega, hne⟩
  refine ⟨_, _, .plain htake (fun c hc => hds c (List.mem_of_mem_take hc))
    (fun c hc => hds c (List.mem_of_mem_drop hc)), ?_⟩
  rw [List.take_append_drop, List.length_drop]
  congr 2
  omega

/-- One digit, a point with the others behind it, and the exponent. -/
theorem gives_scaled {c : Char} {ds : List Char} (hc : c.isDigit) (hds : ∀ d ∈ ds, d.isDigit)
    (e : Int) :
    Gives (c :: '.' :: ds ++ 'e' :: (if e < 0 then '-' else '+') :: exponentDigits e.natAbs)
      (digitsValue (c :: ds) * 10 ^ (e - ds.length)) := by
  obtain ⟨hne, hdigits, hvalue⟩ := exponentDigits_spec e.natAbs
  have hwhole : ∀ d ∈ [c], d.isDigit := by
    rintro d hd
    obtain rfl := List.mem_singleton.mp hd
    exact hc
  have h := IsDecimal.scaled (decide (e < 0)) (List.cons_ne_nil c []) hwhole hds hne hdigits
  have he : (if e < 0 then -(e.natAbs : Int) else e.natAbs) = e := by
    split_ifs <;> omega
  simp only [hvalue, decide_eq_true_eq, he] at h
  exact ⟨_, _, h, rfl⟩

/-- Between a single digit and the exponent a point is set. -/
theorem withPoint_single {c sign : Char} {ds : List Char} (hc : c.isDigit) (hsign : sign ≠ '.')
    (hds : ∀ d ∈ ds, d.isDigit) :
    withPoint (c :: 'e' :: sign :: ds) = c :: '.' :: ['0'] ++ 'e' :: sign :: ds := by
  have hpoint : '.' ∉ c :: 'e' :: sign :: ds := by
    simp only [List.mem_cons, not_or]
    refine ⟨(ne_of_isDigit hc rfl).symm, by decide, hsign.symm, fun hmem => ?_⟩
    cases hds _ hmem
  have hmark : c ≠ 'e' := ne_of_isDigit hc rfl
  have hcontains : (c :: 'e' :: sign :: ds).contains 'e' = true := by simp
  rw [withPoint, if_neg (by rw [hcontains]; simpa using hpoint), List.takeWhile_cons_of_pos
    (by simpa using hmark),
    List.takeWhile_cons_of_neg (by simp), List.dropWhile_cons_of_pos (by simpa using hmark),
    List.dropWhile_cons_of_neg (by simp)]
  rfl

/-- A single digit and the exponent. -/
theorem gives_single {c : Char} (hc : c.isDigit) (e : Int) :
    Gives (withPoint ([c] ++ 'e' :: (if e < 0 then '-' else '+') :: exponentDigits e.natAbs))
      (digitsValue [c] * 10 ^ e) := by
  have hsign : (if e < 0 then '-' else '+') ≠ '.' := by split_ifs <;> decide
  have hzero : (digitsValue [c, '0'] : ℚ) = digitsValue [c] * 10 := by
    have := digitsValue_append_zeros [c] 1
    exact_mod_cast this
  have hvalue : (digitsValue [c] : ℚ) * 10 ^ e =
    digitsValue [c, '0'] * 10 ^ (e - (['0'] : List Char).length) := by
    have hsplit : e = 1 + (e - (['0'] : List Char).length) := by simp
    conv_lhs => rw [hsplit, zpow_add_ten, zpow_one, ← mul_assoc, ← hzero]
  rw [List.singleton_append, withPoint_single hc hsign (exponentDigits_spec _).2.1, hvalue]
  exact gives_scaled hc (List.forall_mem_singleton.mpr rfl) e

/-- Laid out in whatever form, digits give the same number. -/
theorem Digits.gives_layout (d : Digits) (hne : d.digits ≠ []) (hds : ∀ c ∈ d.digits, c.isDigit) :
    Gives (withPoint d.layout) (digitsValue d.digits * 10 ^ (d.point - d.digits.length)) := by
  rw [layout]
  dsimp only
  by_cases hmiddle : -4 < d.point ∧ d.point ≤ 16
  · rw [if_pos hmiddle]
    split_ifs with hsmall hlarge
    · rw [withPoint_of_mem (by simp)]
      exact gives_small hds hsmall
    · rw [withPoint_of_mem (by simp)]
      exact gives_large hne hds hlarge
    · rw [withPoint_of_mem (by simp)]
      exact gives_between hne hds (by omega) (by omega)
  · rw [if_neg hmiddle]
    obtain ⟨digits, point⟩ := d
    dsimp only at hne hds ⊢
    obtain _ | ⟨c, _ | ⟨c', rest⟩⟩ := digits
    · exact absurd rfl hne
    · exact gives_single (hds c (by simp)) (point - 1)
    · rw [withPoint_of_mem (by simp), List.length_cons, Nat.cast_add, Nat.cast_one,
        sub_add_eq_sub_sub_swap]
      exact gives_scaled (hds c (by simp)) (fun d hd => hds d (List.mem_cons_of_mem _ hd))
        (point - 1)

/-- The shortest text names a number of the cell. -/
theorem gives_shortest (hfits : Fits m q) (hm : 0 < m) :
    ∃ v, Gives (withPoint (shortest m q).layout) v ∧ Cell m q v :=
  have h := names_shortest hfits hm
  ⟨_, (shortest m q).gives_layout h.ne_nil h.isDigit, h.cell⟩

end Binary64

end StepLoom
