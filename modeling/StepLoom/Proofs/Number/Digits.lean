import StepLoom.Number.Reading
import StepLoom.Text.Quoted
import Mathlib.Algebra.Group.Nat.Defs
import Mathlib.Tactic.Common

/-!
# Digits are read back

The digits of a number, read place by place, give the number (`foldl_toDigits`), and zeros in front
of them count nothing. The readers of numbers differ in how they take the value of a digit, so that
is a parameter.
-/

namespace StepLoom

variable {base n width : Nat} {value : Char → Nat}

/-- Digits read from the first on. -/
theorem foldl_toDigits (hbase : 1 < base) (hvalue : ∀ d < base, value d.digitChar = d) (n : Nat) :
    (Nat.toDigits base n).foldl (fun m c => m * base + value c) 0 = n := by
  induction n using Nat.strongRecOn with
  | ind n ih =>
    rw [Nat.toDigits_eq_if hbase]
    by_cases hn : n < base
    · simp [hn, hvalue n hn]
    · have hpos : 0 < base := by omega
      have hlt : n / base < n := Nat.div_lt_self (by omega) hbase
      rw [if_neg hn, List.foldl_append, ih (n / base) hlt, List.foldl_cons, List.foldl_nil,
        hvalue _ (Nat.mod_lt n hpos), Nat.mul_comm]
      exact Nat.div_add_mod n base

/-- Zeros in front of digits. -/
theorem foldl_zeros (hzero : value '0' = 0) (k : Nat) (cs : List Char) :
    (List.replicate k '0' ++ cs).foldl (fun m c => m * base + value c) 0 =
      cs.foldl (fun m c => m * base + value c) 0 := by
  induction k with
  | zero => rfl
  | succ k ih =>
    rw [List.replicate_succ, List.cons_append, List.foldl_cons, hzero, Nat.zero_mul, Nat.add_zero,
      ih]

theorem foldl_hexDigits (hvalue : ∀ d < 16, value d.digitChar = d) :
    (Text.hexDigits width n).foldl (fun m c => m * 16 + value c) 0 = n := by
  rw [Text.hexDigits, foldl_zeros (hvalue 0 (by decide)),
    foldl_toDigits (by decide) hvalue]

theorem length_hexDigits (hpos : 0 < width) (hn : n < 16 ^ width) :
    (Text.hexDigits width n).length = width := by
  have hle := (Nat.length_toDigits_le_iff (by decide) hpos).mpr hn
  rw [Text.hexDigits, List.length_append, List.length_replicate]
  omega

/-- The digits of a number are such characters. -/
theorem exists_of_mem_toDigits (hbase : 1 < base) {c : Char} (hc : c ∈ Nat.toDigits base n) :
    ∃ d < base, c = d.digitChar := by
  induction n using Nat.strongRecOn with
  | ind n ih =>
    rw [Nat.toDigits_eq_if hbase] at hc
    by_cases hn : n < base
    · rw [if_pos hn, List.mem_singleton] at hc
      exact ⟨n, hn, hc⟩
    · rw [if_neg hn, List.mem_append, List.mem_singleton] at hc
      obtain hc | rfl := hc
      · exact ih (n / base) (Nat.div_lt_self (by omega) hbase) hc
      · exact ⟨n % base, Nat.mod_lt n (by omega), rfl⟩

theorem exists_of_mem_hexDigits {c : Char} (hc : c ∈ Text.hexDigits width n) :
    ∃ d < 16, c = d.digitChar := by
  rw [Text.hexDigits, List.mem_append] at hc
  obtain hc | hc := hc
  · obtain rfl := List.eq_of_mem_replicate hc
    exact ⟨0, by decide, rfl⟩
  · exact exists_of_mem_toDigits (by decide) hc

/-- The text of an integer. -/
theorem toList_toString (n : Int) :
    (toString n).toList = (if n < 0 then ['-'] else []) ++ Nat.toDigits 10 n.natAbs := by
  cases n with
  | ofNat m => simp [toString, Int.repr, Nat.repr]
  | negSucc m => simp [toString, Int.repr, Nat.repr, Int.negSucc_lt_zero]

end StepLoom
