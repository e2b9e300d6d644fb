import StepLoom.Fault
import Mathlib.Data.List.Forall2

/-!
# Lists side by side

Work on each item of a list gives a list of the same shape. This file takes such pairs of lists
apart and puts them together.
-/

namespace StepLoom

variable {α β γ : Type} {R : α → β → Prop}

theorem forall₂_comp {S : β → γ → Prop} {T : α → γ → Prop} {xs : List α} {ys : List β}
    {zs : List γ} (h : ∀ a b c, R a b → S b c → T a c) (hR : List.Forall₂ R xs ys)
    (hS : List.Forall₂ S ys zs) : List.Forall₂ T xs zs := by
  induction hR generalizing zs with
  | nil =>
    cases hS
    exact .nil
  | cons hab _ ih =>
    cases hS with
    | cons hbc hrest => exact .cons (h _ _ _ hab hbc) (ih hrest)

theorem forall₂_append {xs ys : List α} {zs : List β} (h : List.Forall₂ R (xs ++ ys) zs) :
    ∃ us vs, zs = us ++ vs ∧ List.Forall₂ R xs us ∧ List.Forall₂ R ys vs := by
  induction xs generalizing zs with
  | nil => exact ⟨[], zs, rfl, .nil, h⟩
  | cons x xs ih =>
    obtain ⟨z, zs', hxz, hrest, rfl⟩ := List.forall₂_cons_left_iff.mp h
    obtain ⟨us, vs, rfl, hus, hvs⟩ := ih hrest
    exact ⟨z :: us, vs, rfl, .cons hxz hus, hvs⟩

/-- What stands beside joined blocks falls into blocks as well. -/
theorem forall₂_flatten {blocks : List (List α)} {zs : List β}
    (h : List.Forall₂ R blocks.flatten zs) :
    ∃ blocks', zs = blocks'.flatten ∧ List.Forall₂ (List.Forall₂ R) blocks blocks' := by
  induction blocks generalizing zs with
  | nil =>
    obtain rfl := List.forall₂_nil_left_iff.mp h
    exact ⟨[], rfl, .nil⟩
  | cons b blocks ih =>
    obtain ⟨us, vs, rfl, hb, hrest⟩ := forall₂_append h
    obtain ⟨blocks', rfl, hall⟩ := ih hrest
    exact ⟨us :: blocks', rfl, .cons hb hall⟩

theorem forall₂_exists_left {xs : List α} {ys : List β} (h : List.Forall₂ R xs ys) {y : β}
    (hy : y ∈ ys) : ∃ x ∈ xs, R x y := by
  induction h with
  | nil => cases hy
  | cons hxy _ ih =>
    rcases List.mem_cons.mp hy with rfl | hy
    · exact ⟨_, List.mem_cons_self, hxy⟩
    · obtain ⟨x, hx, hr⟩ := ih hy
      exact ⟨x, List.mem_cons_of_mem _ hx, hr⟩

theorem forall₂_getElem? {xs : List α} {ys : List β} (h : List.Forall₂ R xs ys) {k : ℕ} {x : α}
    (hx : xs[k]? = some x) : ∃ y, ys[k]? = some y ∧ R x y := by
  induction h generalizing k with
  | nil => simp at hx
  | cons hxy _ ih =>
    cases k with
    | zero =>
      obtain rfl := Option.some.inj hx
      exact ⟨_, rfl, hxy⟩
    | succ k => exact ih hx

theorem map_of_forall₂ {f : β → α} {xs : List α} {ys : List β}
    (h : List.Forall₂ (fun x y => f y = x) xs ys) : ys.map f = xs := by
  induction h with
  | nil => rfl
  | cons hxy _ ih => rw [List.map_cons, hxy, ih]

/-- What stands between two items can be chosen for all of them. -/
theorem forall₂_between {δ : Type} {S : β → γ → Prop} {P : α → δ → Prop} {Q : δ → β → Prop}
    {T : δ → γ → Prop} {xs : List α} {ys : List β} {zs : List γ}
    (h : ∀ x y z, R x y → S y z → ∃ d, P x d ∧ Q d y ∧ T d z) (hR : List.Forall₂ R xs ys)
    (hS : List.Forall₂ S ys zs) :
    ∃ ds, List.Forall₂ P xs ds ∧ List.Forall₂ Q ds ys ∧ List.Forall₂ T ds zs := by
  induction hR generalizing zs with
  | nil =>
    cases hS
    exact ⟨[], .nil, .nil, .nil⟩
  | cons hxy _ ih =>
    cases hS with
    | cons hyz hrest =>
      obtain ⟨d, hp, hq, ht⟩ := h _ _ _ hxy hyz
      obtain ⟨ds, hps, hqs, hts⟩ := ih hrest
      exact ⟨d :: ds, .cons hp hps, .cons hq hqs, .cons ht hts⟩

theorem bind_eq_ok {x : Except Fault α} {f : α → Except Fault β} {b : β} :
    x >>= f = .ok b ↔ ∃ a, x = .ok a ∧ f a = .ok b := by
  cases x with
  | ok a => exact ⟨fun h => ⟨a, rfl, h⟩, fun ⟨_, ha, h⟩ => Except.ok.inj ha ▸ h⟩
  | error e =>
    constructor
    · rintro ⟨⟩
    · rintro ⟨_, ⟨⟩, _⟩

theorem mapM_ok {f : α → Except Fault β} {xs : List α} {ys : List β} (h : xs.mapM f = .ok ys) :
    List.Forall₂ (fun x y => f x = .ok y) xs ys := by
  induction xs generalizing ys with
  | nil =>
    rw [List.mapM_nil] at h
    obtain rfl := Except.ok.inj h
    exact .nil
  | cons x xs ih =>
    rw [List.mapM_cons] at h
    cases hx : f x with
    | error e => rw [hx] at h; cases h
    | ok y =>
      cases hr : xs.mapM f with
      | error e => rw [hx, hr] at h; cases h
      | ok more =>
        rw [hx, hr] at h
        obtain rfl := Except.ok.inj h
        exact .cons hx (ih hr)

end StepLoom
