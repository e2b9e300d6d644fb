import StepLoom.Text.Distinct
import Mathlib.Data.List.Nodup
import Mathlib.Tactic.Common

/-!
# Lists that grow without repetition

`addOnce` adds one member, `addAll` adds several in order. Both keep what is there in its place, so
the members of a list that only grows this way are in the order of their first appearance.
-/

namespace StepLoom

/-- The list with some more members, each at the end if it is new. -/
def addAll (xs new : List String) : List String := new.foldl (fun acc x => addOnce x acc) xs

theorem distinct_eq_addAll (xs : List String) : distinct xs = addAll [] xs := rfl

@[simp] theorem addAll_nil (xs : List String) : addAll xs [] = xs := rfl

@[simp] theorem addAll_cons (xs new : List String) (x : String) :
    addAll xs (x :: new) = addAll (addOnce x xs) new := rfl

@[simp] theorem mem_addOnce {x y : String} {xs : List String} :
    y ∈ addOnce x xs ↔ y ∈ xs ∨ y = x := by
  unfold addOnce
  split_ifs with h
  · exact ⟨Or.inl, fun h' => h'.elim id fun e => e ▸ h⟩
  · simp

theorem addOnce_of_mem {x : String} {xs : List String} (h : x ∈ xs) : addOnce x xs = xs := if_pos h

@[simp] theorem mem_addAll {y : String} {xs new : List String} :
    y ∈ addAll xs new ↔ y ∈ xs ∨ y ∈ new := by
  induction new generalizing xs with
  | nil => simp
  | cons x new ih => simp [ih, or_assoc]

theorem nodup_addOnce {x : String} {xs : List String} (h : xs.Nodup) : (addOnce x xs).Nodup := by
  unfold addOnce
  split_ifs with hx
  · exact h
  · simpa [List.nodup_append, h] using fun a ha (e : a = x) => hx (e ▸ ha)

theorem nodup_addAll {xs new : List String} (h : xs.Nodup) : (addAll xs new).Nodup := by
  induction new generalizing xs with
  | nil => exact h
  | cons x new ih => exact ih (nodup_addOnce h)

/-- Adding what is there already changes nothing. -/
theorem addAll_of_subset {xs new : List String} (h : ∀ x ∈ new, x ∈ xs) : addAll xs new = xs := by
  induction new with
  | nil => rfl
  | cons x new ih =>
    rw [addAll_cons, addOnce_of_mem (h x (by simp))]
    exact ih fun y hy => h y (List.mem_cons_of_mem x hy)

theorem addAll_addAll_self (xs new : List String) : addAll (addAll xs new) new = addAll xs new :=
  addAll_of_subset fun _ hx => mem_addAll.mpr (Or.inr hx)

/-- What is added is what is new, each member once. -/
theorem addAll_eq_append (xs new : List String) :
    addAll xs new = xs ++ (new.filter (· ∉ xs)).eraseDups := by
  induction new generalizing xs with
  | nil => simp
  | cons x new ih =>
    rw [addAll_cons, ih, addOnce]
    by_cases hx : x ∈ xs
    · simp [hx]
    · rw [if_neg hx, List.filter_cons_of_pos (by simpa using hx), List.eraseDups_cons,
        List.filter_filter, List.append_assoc, List.singleton_append]
      congr 3
      refine List.filter_congr fun y _ => ?_
      by_cases hy : y = x <;> simp [hy, hx]

theorem distinct_eq_eraseDups (xs : List String) : distinct xs = xs.eraseDups := by
  rw [distinct_eq_addAll, addAll_eq_append]
  simp

theorem addAll_ne_nil {xs new : List String} (h : new ≠ []) : addAll xs new ≠ [] := by
  obtain ⟨x, rest, rfl⟩ := List.exists_cons_of_ne_nil h
  exact List.ne_nil_of_mem (a := x) (mem_addAll.mpr (Or.inr (by simp)))

theorem length_addOnce_le (x : String) (xs : List String) :
    (addOnce x xs).length ≤ xs.length + 1 := by
  unfold addOnce
  split_ifs <;> simp

theorem length_addAll_le (xs new : List String) :
    (addAll xs new).length ≤ xs.length + new.length := by
  induction new generalizing xs with
  | nil => simp
  | cons x new ih =>
    have hx := length_addOnce_le x xs
    have hrest := ih (addOnce x xs)
    simp only [addAll_cons, List.length_cons]
    omega

end StepLoom
