import StepLoom.Graph
import StepLoom.Proofs.Number.Decimal

/-!
# The name of the checkout

A setup is known by its name as a text. The names of numbers and dates hold no `k`, and those of
lists and mappings start with a bracket, so it takes the text itself to name the checkout
(`Value.eq_of_text_checkout`).
-/

namespace StepLoom

variable {n width : Nat} {v : Value}

theorem not_mem_toDigits : 'k' ∉ Nat.toDigits 10 n :=
  fun h => absurd (isDigit_of_mem_toDigits h) (by decide)

theorem not_mem_paddedDigits : 'k' ∉ (paddedDigits width n).toList := by
  simp [paddedDigits, not_mem_toDigits]

theorem Binary64.not_mem_layout {d : Digits} (hd : 'k' ∉ d.digits) : 'k' ∉ d.layout := by
  have hexponent : 'k' ∉ exponentDigits (d.point - 1).natAbs := by
    rw [exponentDigits]
    split_ifs <;> simp [not_mem_toDigits]
  have htake : 'k' ∉ d.digits.take d.point.toNat := fun h => hd (List.mem_of_mem_take h)
  have hdrop : 'k' ∉ d.digits.drop d.point.toNat := fun h => hd (List.mem_of_mem_drop h)
  rw [Digits.layout]
  dsimp only
  split_ifs
  · simp [hd]
  · simp [hd]
  · simp [htake, hdrop]
  · split <;> simp_all
  · split <;> simp_all

theorem Binary64.not_mem_text (x : Binary64) : 'k' ∉ x.text.toList := by
  have hdigits : ∀ m q, 'k' ∉ (shortest m q).digits := fun m q h => by
    rw [shortest] at h
    simp only [List.mem_reverse] at h
    exact not_mem_toDigits (List.mem_reverse.mp ((List.dropWhile_sublist _).mem h))
  unfold text
  cases x.parts with
  | nan => decide
  | infinite negative => cases negative <;> decide
  | finite negative m q =>
    dsimp only
    split_ifs <;> simp [not_mem_layout (hdigits m q)]

theorem Date.not_mem_text (d : Date) : 'k' ∉ d.text.toList := by
  simp [text, not_mem_paddedDigits]

theorem Timestamp.not_mem_textWith (t : Timestamp) : 'k' ∉ (t.textWith " ").toList := by
  have hzone : ∀ z, 'k' ∉ (zoneText z).toList := fun z => by
    rw [zoneText]
    split_ifs <;> simp [not_mem_paddedDigits]
  rw [textWith]
  cases t.zone <;> split_ifs <;> simp [Date.not_mem_text, not_mem_paddedDigits, hzone]

theorem Scalar.eq_of_bareSpelling {a : Scalar} (h : a.bareSpelling = Graph.checkoutSetup) :
    a = .str Graph.checkoutSetup := by
  have hk : ∀ s : String, 'k' ∉ s.toList → s ≠ Graph.checkoutSetup := by
    rintro _ hs rfl
    exact hs (by decide)
  cases a with
  | str s => exact congrArg Scalar.str h
  | null => exact absurd h (by decide)
  | bool b => cases b <;> exact absurd h (by decide)
  | int n =>
    have hn : 'k' ∉ (toString n).toList := by
      rw [toList_toString]
      split_ifs <;> simp [not_mem_toDigits]
    exact absurd h (hk _ hn)
  | float x => exact absurd h (hk _ x.not_mem_text)
  | date d => exact absurd h (hk _ d.not_mem_text)
  | timestamp t => exact absurd h (hk _ t.not_mem_textWith)
  | bytes bs =>
    have hb : (Text.quoteBytes bs).toList.head? = some 'b' := by
      rw [Text.quoteBytes, String.toList_ofList, List.cons_append, List.head?_cons]
    rw [show Text.quoteBytes bs = Graph.checkoutSetup from h] at hb
    cases hb
  | pair a b =>
    have hp : ("(" ++ a.spelling ++ ", " ++ b.spelling ++ ")").toList.head? = some '(' := by simp
    have heq : "(" ++ a.spelling ++ ", " ++ b.spelling ++ ")" = Graph.checkoutSetup := h
    rw [heq] at hp
    cases hp

theorem Value.head?_spelling (hv : ∀ a, v ≠ .scalar a) :
    (v.spelling []).toList.head? ≠ some 'c' := by
  have hbracketed : ∀ opening closing parts c cs, opening.toList = c :: cs → c ≠ 'c' →
      (bracketed opening closing parts).toList.head? ≠ some 'c' := by
    intro opening closing parts c cs ho hc
    simp [bracketed, ho, hc]
  cases v with
  | scalar a => exact absurd rfl (hv a)
  | list items => exact hbracketed _ _ _ '[' [] rfl (by decide)
  | pair a b => exact hbracketed _ _ _ '(' [] rfl (by decide)
  | set members =>
    cases members with
    | nil => decide
    | cons a rest => exact hbracketed _ _ _ _ [] rfl (by decide)
  | map mark fields => cases mark <;> exact hbracketed _ _ _ _ [] rfl (by decide)
  | ring mark items => exact hbracketed _ _ _ '[' [] rfl (by decide)
  | again mark => simp [spelling, dots]

/-- Only the text itself is written as the name of the checkout. -/
theorem Value.eq_of_text_checkout (h : v.text = .ok Graph.checkoutSetup) :
    v = .str Graph.checkoutSetup := by
  by_cases hv : ∃ a, v = .scalar a
  · obtain ⟨a, rfl⟩ := hv
    rw [text] at h
    split_ifs at h with htext
    rw [Scalar.eq_of_bareSpelling (Except.ok.inj h)]
  · have hne := head?_spelling fun a ha => hv ⟨a, ha⟩
    have htext : v.text = v.literal := text.eq_2 v fun a ha => hv ⟨a, ha⟩
    rw [htext, literal] at h
    split_ifs at h
    rw [Except.ok.inj h] at hne
    exact absurd rfl hne

end StepLoom
