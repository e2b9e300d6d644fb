import StepLoom.Local.Shell
import Mathlib.Data.List.Basic
import Mathlib.Tactic.Common

/-!
# Texts that are split

A text without the separator goes whole into the first piece. So lines that are put one below
another come back one by one (`linesOf_unlines`).
-/

namespace StepLoom

namespace Text

variable {sep c : Char} {cs ds piece : List Char}

theorem splitOnChar_ne_nil (sep : Char) (cs : List Char) : splitOnChar sep cs ≠ [] := by
  cases cs with
  | nil => simp [splitOnChar]
  | cons c rest =>
    rw [splitOnChar]
    split_ifs
    · simp
    · split <;> simp

theorem splitOnChar_cons_of_ne (h : c ≠ sep) :
    splitOnChar sep (c :: cs) = (splitOnChar sep cs).modifyHead (c :: ·) := by
  obtain ⟨p, more, hsplit⟩ := List.exists_cons_of_ne_nil (splitOnChar_ne_nil sep cs)
  rw [splitOnChar, if_neg h, hsplit]
  rfl

theorem splitOnChar_append (h : sep ∉ cs) :
    splitOnChar sep (cs ++ ds) = (splitOnChar sep ds).modifyHead (cs ++ ·) := by
  induction cs with
  | nil => exact (congrFun List.modifyHead_id _).symm
  | cons c rest ih =>
    obtain ⟨hc, hrest⟩ := List.ne_and_not_mem_of_not_mem_cons h
    rw [List.cons_append, splitOnChar_cons_of_ne hc.symm, ih hrest, List.modifyHead_modifyHead]
    rfl

theorem splitOnChar_of_not_mem (h : sep ∉ cs) : splitOnChar sep cs = [cs] := by
  rw [← List.append_nil cs, splitOnChar_append h]
  rfl

theorem splitOnChar_append_cons (h : sep ∉ cs) :
    splitOnChar sep (cs ++ sep :: ds) = cs :: splitOnChar sep ds := by
  rw [splitOnChar_append h, splitOnChar, if_pos rfl, List.modifyHead_cons, List.append_nil]

theorem not_mem_of_mem_splitOnChar (h : piece ∈ splitOnChar sep cs) : sep ∉ piece := by
  induction cs generalizing piece with
  | nil =>
    rw [List.mem_singleton.mp h]
    simp
  | cons c rest ih =>
    by_cases hc : c = sep
    · rw [splitOnChar, if_pos hc] at h
      rcases List.mem_cons.mp h with rfl | h
      · simp
      · exact ih h
    · obtain ⟨p, more, hsplit⟩ := List.exists_cons_of_ne_nil (splitOnChar_ne_nil sep rest)
      rw [splitOnChar_cons_of_ne hc, hsplit, List.modifyHead_cons] at h
      rw [hsplit] at ih
      rcases List.mem_cons.mp h with rfl | h
      · simpa [Ne.symm hc] using ih (List.mem_cons_self)
      · exact ih (List.mem_cons_of_mem _ h)

/-- Lines as they are printed, each with a line feed after it. -/
def unlines (lines : List String) : List Char := lines.flatMap fun line => line.toList ++ ['\n']

end Text

theorem Shell.linesOf_unlines {lines : List String} (h : ∀ line ∈ lines, '\n' ∉ line.toList) :
    linesOf (Text.unlines lines) = lines := by
  have hsplit : Text.splitOnChar '\n' (Text.unlines lines) = lines.map String.toList ++ [[]] := by
    induction lines with
    | nil => rfl
    | cons line rest ih =>
      obtain ⟨hline, hrest⟩ := List.forall_mem_cons.mp h
      rw [Text.unlines, List.flatMap_cons, List.append_assoc, List.singleton_append,
        Text.splitOnChar_append_cons hline, ← Text.unlines, ih hrest]
      rfl
  rw [linesOf, hsplit, if_pos (by simp)]
  simp [Function.comp_def]

end StepLoom
