import StepLoom.Proofs.Run
import Mathlib.Data.List.Forall2
import Mathlib.Data.Option.Basic

/-!
# Two runs side by side

The same work done on related inputs. `Alike` relates two answers: both are there and related, or
both are missing for the same fault. `Abreast` says that work on related states comes to related
states and to answers that are alike. Both are kept by sequences, so the proofs follow the
definitions line by line.
-/

namespace StepLoom

variable {σ α α' β β' : Type} {R : α → α' → Prop} {R' : β → β' → Prop} {S : σ → σ → Prop}

/-! ## Answers -/

/-- Two answers are related, or two attempts fail for the same fault. -/
inductive Alike (R : α → α' → Prop) : Except Fault α → Except Fault α' → Prop
  | ok {a : α} {a' : α'} (h : R a a') : Alike R (.ok a) (.ok a')
  | error (e : Fault) : Alike R (.error e) (.error e)

theorem Alike.bind {x : Except Fault α} {x' : Except Fault α'} {f : α → Except Fault β}
    {f' : α' → Except Fault β'} (h : Alike R x x') (hf : ∀ a a', R a a' → Alike R' (f a) (f' a')) :
    Alike R' (x >>= f) (x' >>= f') := by
  cases h with
  | ok h => exact hf _ _ h
  | error e => exact .error e

theorem Alike.with_ok {x : Except Fault α} {x' : Except Fault α'} (h : Alike R x x') :
    Alike (fun a a' => x = .ok a ∧ R a a') x x' := by
  cases h with
  | ok h => exact .ok ⟨rfl, h⟩
  | error e => exact .error e

theorem alike_eq {x x' : Except Fault α} : Alike Eq x x' ↔ x = x' := by
  constructor
  · rintro (h | e)
    · rw [h]
    · rfl
  · rintro rfl
    cases x with
    | ok a => exact .ok rfl
    | error e => exact .error e

/-- The same attempt on both sides. -/
theorem alike_bind_same {x : Except Fault α} {f : α → Except Fault β} {f' : α → Except Fault β'}
    (hf : ∀ a, Alike R' (f a) (f' a)) : Alike R' (x >>= f) (x >>= f') :=
  (alike_eq.mpr rfl).bind fun a _ h => h ▸ hf a

theorem alike_mapM {f : α → Except Fault β} {f' : α' → Except Fault β'} {xs : List α}
    {xs' : List α'} (h : List.Forall₂ R xs xs') (hf : ∀ a a', R a a' → Alike R' (f a) (f' a')) :
    Alike (List.Forall₂ R') (xs.mapM f) (xs'.mapM f') := by
  induction h with
  | nil =>
    rw [List.mapM_nil, List.mapM_nil]
    exact .ok .nil
  | cons hx _ ih =>
    rw [List.mapM_cons, List.mapM_cons]
    exact (hf _ _ hx).bind fun _ _ hy => ih.bind fun _ _ hys => .ok (.cons hy hys)

theorem forall₂_rel_getElem? {xs : List α} {xs' : List α'} (h : List.Forall₂ R xs xs') (k : Nat) :
    Option.Rel R xs[k]? xs'[k]? := by
  induction h generalizing k with
  | nil => exact .none
  | cons hx _ ih =>
    cases k with
    | zero => exact .some hx
    | succ k => exact ih k

theorem forall₂_set {xs : List α} {xs' : List α'} (h : List.Forall₂ R xs xs') {a : α} {a' : α'}
    (ha : R a a') (k : Nat) : List.Forall₂ R (xs.set k a) (xs'.set k a') := by
  induction h generalizing k with
  | nil => exact .nil
  | cons hx hrest ih =>
    cases k with
    | zero => exact .cons ha hrest
    | succ k => exact .cons hx (ih k)

/-! ## Work -/

/-- From related states, two runs come to related states and to answers that are alike. -/
def Abreast (S : σ → σ → Prop) (R : α → α' → Prop) (x : Work σ α) (x' : Work σ α') : Prop :=
  ∀ g g', S g g' → Alike R (exec x g).1 (exec x' g').1 ∧ S (exec x g).2 (exec x' g').2

theorem Abreast.bind {x : Work σ α} {x' : Work σ α'} {f : α → Work σ β} {f' : α' → Work σ β'}
    (h : Abreast S R x x') (hf : ∀ a a', R a a' → Abreast S R' (f a) (f' a')) :
    Abreast S R' (x >>= f) (x' >>= f') := by
  intro g g' hg
  obtain ⟨halike, hs⟩ := h g g' hg
  rw [exec_bind, exec_bind]
  generalize exec x g = p, exec x' g' = p' at halike hs ⊢
  obtain ⟨r, g₁⟩ := p
  obtain ⟨r', g₁'⟩ := p'
  cases halike with
  | ok ha => exact hf _ _ ha _ _ hs
  | error e => exact ⟨.error e, hs⟩

theorem Abreast.bind_eq {x x' : Work σ α} {f : α → Work σ β} {f' : α → Work σ β'}
    (h : Abreast S Eq x x') (hf : ∀ a, Abreast S R' (f a) (f' a)) :
    Abreast S R' (x >>= f) (x' >>= f') :=
  h.bind fun a _ ha => ha ▸ hf a

/-- The same work on the same state. -/
theorem abreast_self (x : Work σ α) : Abreast Eq Eq x x := by
  rintro g _ rfl
  exact ⟨alike_eq.mpr rfl, rfl⟩

theorem abreast_pure {a : α} {a' : α'} (h : R a a') : Abreast S R (pure a) (pure a') :=
  fun _ _ hg => ⟨.ok h, hg⟩

theorem abreast_throw (e : Fault) : Abreast S R (throw e) (throw e) := fun _ _ hg => ⟨.error e, hg⟩

theorem abreast_get : Abreast S S get get := fun _ _ hg => ⟨.ok hg, hg⟩

theorem abreast_modify {f f' : σ → σ} (h : ∀ g g', S g g' → S (f g) (f' g')) :
    Abreast S Eq (modify f) (modify f') := fun _ _ hg => ⟨.ok rfl, h _ _ hg⟩

theorem abreast_liftM {x : Except Fault α} {x' : Except Fault α'} (h : Alike R x x') :
    Abreast S R (liftM x) (liftM x') := by
  intro g g' hg
  cases h with
  | ok h => exact ⟨.ok h, hg⟩
  | error e => exact ⟨.error e, hg⟩

/-- The same attempt on both sides. -/
theorem abreast_liftM_self (x : Except Fault α) :
    Abreast S (fun a a' => x = .ok a ∧ a = a') (liftM x) (liftM x) :=
  abreast_liftM (alike_eq.mpr rfl).with_ok

theorem abreast_liftM_eq (x : Except Fault α) : Abreast S Eq (liftM x) (liftM x) :=
  abreast_liftM (alike_eq.mpr rfl)

theorem abreast_discard {x : Work σ α} {x' : Work σ α'} (h : Abreast S R x x') :
    Abreast S Eq (discard x) (discard x') := by
  intro g g' hg
  obtain ⟨halike, hs⟩ := h g g' hg
  rw [exec_discard, exec_discard]
  generalize exec x g = p, exec x' g' = p' at halike hs ⊢
  obtain ⟨r, g₁⟩ := p
  obtain ⟨r', g₁'⟩ := p'
  cases halike with
  | ok ha => exact ⟨.ok rfl, hs⟩
  | error e => exact ⟨.error e, hs⟩

end StepLoom
