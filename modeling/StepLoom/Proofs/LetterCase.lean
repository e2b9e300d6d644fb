import StepLoom.Proofs.Splitting
import StepLoom.Text.LetterCase

/-!
# Letter case between slashes

The lower case of a letter may depend on the letters around it, but only on those of its own word. A
slash is no letter and no letter becomes one, so a path is put into lower case name by name
(`split_lower`).
-/

namespace StepLoom.Text

variable {c : Char} {cs ds before : List Char}

theorem lowerChar_slash : lowerChar '/' = ['/'] := by decide

/-! ## No letter becomes a slash -/

theorem ofNat_eq_slash {n : Nat} (h : Char.ofNat n = '/') : n = 47 := by
  by_cases hn : n.isValidChar
  · rw [Char.ofNat, dif_pos hn] at h
    exact congrArg Char.toNat h
  · rw [Char.ofNat, dif_neg hn] at h
    exact absurd h (by decide)

theorem slash_of_mapCase (hc : 128 ≤ c.toNat) : '/' ∉ mapCase lowerRuns lowerExpansions c := by
  have hexpansions : ∀ e ∈ lowerExpansions, '/' ∉ e.2.map Char.ofNat := by decide
  have hruns : ∀ r ∈ lowerRuns, (47 : Int) < r.first + r.shift := by decide +kernel
  have hshift : (47 : Int) < c.toNat + shiftIn lowerRuns c.toNat := by
    rw [shiftIn]
    split
    · next r hfind =>
      have hr := hruns r (List.mem_of_find?_eq_some hfind)
      have hfirst : r.first ≤ c.toNat := by
        have hfind := List.find?_some hfind
        exact (of_decide_eq_true hfind).1
      omega
    · omega
  rw [mapCase]
  split
  · next hfind => exact hexpansions _ (List.mem_of_find?_eq_some hfind)
  · intro hmem
    have := ofNat_eq_slash (List.mem_singleton.mp hmem).symm
    omega

theorem slash_of_lowerChar (h : '/' ∈ lowerChar c) : c = '/' := by
  rw [lowerChar] at h
  split_ifs at h with hc
  · have hascii : ∀ n : Fin 128, (Char.ofNat n).toLower = '/' → Char.ofNat n = '/' := by decide
    have := hascii ⟨c.toNat, hc⟩
    rw [Char.ofNat_toNat] at this
    exact this (List.mem_singleton.mp h).symm
  · exact absurd h (slash_of_mapCase (by omega))

theorem slash_notMem_lowerAfter (h : '/' ∉ cs) : '/' ∉ lowerAfter before cs := by
  induction cs generalizing before with
  | nil => simp [lowerAfter]
  | cons c rest ih =>
    obtain ⟨hc, hrest⟩ := List.ne_and_not_mem_of_not_mem_cons h
    rw [lowerAfter, List.mem_append, not_or]
    refine ⟨?_, ih hrest⟩
    split_ifs
    · decide
    · decide
    · exact fun hmem => hc (slash_of_lowerChar hmem).symm

/-! ## A slash ends a word -/

theorem meetsCased_append_slash : meetsCased (cs ++ '/' :: ds) = meetsCased cs := by
  have hslash : inRanges caseIgnorableRanges '/'.toNat = false := by decide +kernel
  have hcased : inRanges casedRanges '/'.toNat = false := by decide
  rw [meetsCased, meetsCased, List.dropWhile_append]
  cases hdrop : cs.dropWhile fun c => inRanges caseIgnorableRanges c.toNat with
  | nil =>
    rw [List.dropWhile_cons_of_neg (by rw [hslash]; decide)]
    exact hcased
  | cons c rest => rfl

theorem lowerAfter_append_slash : lowerAfter (before ++ '/' :: ds) cs = lowerAfter before cs := by
  induction cs generalizing before with
  | nil => rfl
  | cons c rest ih =>
    rw [lowerAfter, lowerAfter, meetsCased_append_slash, ← List.cons_append, ih]

theorem lowerAfter_slash : lowerAfter before (cs ++ '/' :: ds) =
    lowerAfter before cs ++ '/' :: lowerAfter [] ds := by
  induction cs generalizing before with
  | nil =>
    have hrest : lowerAfter ([] ++ '/' :: before) ds = lowerAfter [] ds := lowerAfter_append_slash
    rw [List.nil_append] at hrest ⊢
    rw [lowerAfter, lowerAfter, hrest, if_neg (by decide), lowerChar_slash]
    rfl
  | cons c rest ih =>
    rw [List.cons_append, lowerAfter, lowerAfter, meetsCased_append_slash, ih, List.append_assoc]

theorem splitOnChar_lowerAfter (cs : List Char) :
    splitOnChar '/' (lowerAfter [] cs) = (splitOnChar '/' cs).map (lowerAfter []) := by
  induction hn : cs.length using Nat.strongRecOn generalizing cs with
  | _ n ih =>
    subst hn
    by_cases hmem : '/' ∈ cs
    · obtain ⟨name, rest, rfl, hname⟩ := List.eq_append_cons_of_mem hmem
      rw [lowerAfter_slash, splitOnChar_append_cons (slash_notMem_lowerAfter hname),
        splitOnChar_append_cons hname, List.map_cons, ih rest.length (by simp; omega) rest rfl]
    · rw [splitOnChar_of_not_mem hmem, splitOnChar_of_not_mem (slash_notMem_lowerAfter hmem)]
      rfl

/-- **A path is put into lower case name by name.** -/
theorem split_lower (s : String) : split (lower s) '/' = (split s '/').map lower := by
  rw [split, lower, String.toList_ofList, splitOnChar_lowerAfter, split, List.map_map, List.map_map]
  refine List.map_congr_left fun piece _ => ?_
  rw [Function.comp, Function.comp, lower, String.toList_ofList]

end StepLoom.Text
