import StepLoom.Pattern.Check
import Mathlib.Data.List.Sort
import Mathlib.Data.String.Basic

/-!
# Patterns of path checks

A path check keeps its patterns sorted, so that the order in which an author lists them does not
matter. Sorting twice is sorting once. The patterns become regular expressions, and these the script
of a step (`step_ok`), unless one of them is bad (`regexes_error`).
-/

namespace StepLoom

namespace Check

theorem insertSorted_eq (s : String) (ts : List String) :
    insertSorted s ts = ts.orderedInsert (· ≤ ·) s := by
  induction ts with
  | nil => rfl
  | cons t rest ih => rw [insertSorted, List.orderedInsert_cons, ih]

theorem sortTexts_eq (ts : List String) : sortTexts ts = ts.insertionSort (· ≤ ·) := by
  induction ts with
  | nil => rfl
  | cons t rest ih =>
    change insertSorted t (sortTexts rest) = _
    rw [ih, insertSorted_eq, List.insertionSort_cons]

theorem sortTexts_sortTexts (ts : List String) : sortTexts (sortTexts ts) = sortTexts ts := by
  rw [sortTexts_eq, sortTexts_eq]
  exact (List.pairwise_insertionSort (· ≤ ·) ts).insertionSort_eq

theorem mem_sortTexts {t : String} {ts : List String} : t ∈ sortTexts ts ↔ t ∈ ts := by
  rw [sortTexts_eq, List.mem_insertionSort]

theorem nodeId_sortTexts (ts : List String) : nodeId (sortTexts ts) = nodeId ts := by
  rw [nodeId, sortTexts_sortTexts, nodeId]

theorem sortTexts_eq_nil {ts : List String} : sortTexts ts = [] ↔ ts = [] := by
  simp only [List.eq_nil_iff_forall_not_mem, mem_sortTexts]

/-- Patterns without a `#` can be read off the name of their check. -/
theorem sortTexts_eq_of_nodeId {ps qs : List String} (hp : ps ≠ []) (hq : qs ≠ [])
    (hps : ∀ p ∈ ps, '#' ∉ p.toList) (hqs : ∀ q ∈ qs, '#' ∉ q.toList) (h : nodeId ps = nodeId qs) :
    sortTexts ps = sortTexts qs := by
  have hsplit : ∀ {ts : List String}, ts ≠ [] → (∀ t ∈ ts, '#' ∉ t.toList) →
      ("#".intercalate (sortTexts ts)).toList.splitOn '#' = (sortTexts ts).map String.toList := by
    intro ts hne hts
    rw [String.toList_intercalate]
    refine List.splitOn_intercalate '#' ?_ (by simpa [sortTexts_eq_nil] using hne)
    simpa [mem_sortTexts] using hts
  have hjoined : ("#".intercalate (sortTexts ps)).toList =
      ("#".intercalate (sortTexts qs)).toList := by
    have hlists := congrArg String.toList h
    rw [nodeId, nodeId, String.toList_append, String.toList_append] at hlists
    exact List.append_cancel_left hlists
  have hmap := (hsplit hp hps).symm.trans (hjoined ▸ hsplit hq hqs)
  exact List.map_injective_iff.mpr (fun _ _ => String.toList_inj.mp) hmap

/-- Only a bad pattern has no regular expression. -/
theorem regexes_error {ps : List String} {e : Fault} (h : regexes ps = .error e) :
    ∃ p ∈ ps, e = .invalidPattern p ∧ Pattern.regex p = .error e := by
  induction ps with
  | nil => cases h
  | cons p rest ih =>
    rw [regexes] at h
    cases hp : Pattern.regex p with
    | error e' =>
      rw [hp] at h
      obtain rfl := Except.error.inj h
      refine ⟨p, by simp, ?_, hp⟩
      rw [Pattern.regex, Pattern.parse] at hp
      cases hq : Pattern.pieces? p.toList with
      | none =>
        rw [hq] at hp
        exact (Except.error.inj hp).symm
      | some pieces =>
        rw [hq] at hp
        cases hp
    | ok r =>
      rw [hp] at h
      cases hr : regexes rest with
      | ok rs => rw [hr] at h; cases h
      | error e' =>
        rw [hr] at h
        obtain rfl := Except.error.inj h
        obtain ⟨q, hq, hfault⟩ := ih hr
        exact ⟨q, List.mem_cons_of_mem p hq, hfault⟩

theorem regexes_ok {ps rs : List String} (h : regexes ps = .ok rs) :
    ∀ p ∈ ps, ∃ r, Pattern.regex p = .ok r := by
  induction ps generalizing rs with
  | nil => simp
  | cons p rest ih =>
    rw [regexes] at h
    cases hp : Pattern.regex p with
    | error e => rw [hp] at h; cases h
    | ok r =>
      cases hr : regexes rest with
      | error e => rw [hp, hr] at h; cases h
      | ok more => exact List.forall_mem_cons.mpr ⟨⟨r, hp⟩, ih hr⟩

/-- The step of a path check has its step id, a name that tells the patterns, and the script. -/
theorem step_ok {id : String} {ps : List String} {fields : Fields} (h : step id ps = .ok fields) :
    ∃ rs, regexes ps = .ok rs ∧ fields = ([("id", Value.str id),
      ("name", Value.str ("Check paths: " ++ ", ".intercalate ps)),
      ("run", Value.str (script rs))] : Fields) := by
  rw [step] at h
  cases hr : regexes ps with
  | error e => rw [hr] at h; cases h
  | ok rs =>
    rw [hr] at h
    exact ⟨rs, rfl, (Except.ok.inj h).symm⟩

end Check

end StepLoom
