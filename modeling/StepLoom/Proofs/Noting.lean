import StepLoom.Proofs.Marks
import StepLoom.Proofs.Run

/-!
# Work that notes its edits

The edits of shared mappings are part of the answer of work, so nothing is known of them when the
work fails. *Noting* work keeps a log of its edits, in which each of them is written when it is
made.

`Noted M` relates work to noting work: both have the same outcome, and the log only ever grows by
edits of mappings whose marks are in `M`, also when the work fails. It is proved along the lines of
the work, together with an invariant of the state and a property of the answers.
-/

namespace StepLoom

variable {σ α β : Type}

/-- Work with a log of its edits. -/
abbrev Noting (σ α : Type) : Type := Work (σ × List Edit) α

namespace Noting

/-- Work that edits nothing. -/
def quietly (x : Work σ α) : Noting σ α := ExceptT.mk fun (s : σ × List Edit) =>
  ((exec x s.1).1, (exec x s.1).2, s.2)

/-- Gives a mapping new fields and notes that. -/
def rewrite (v : Value) (fields : Fields) : Noting σ (Value × List Edit) := do
  modify fun s => (s.1, s.2 ++ (v.withFields fields).2)
  return v.withFields fields

end Noting

open Noting

/-- Noting work does what the work does, and edits mappings with marks from `M` only. -/
def Noted (M : Nat → Prop) (I : σ → Prop) (Q : α → σ → Prop) (x : Work σ α) (x' : Noting σ α) :
    Prop :=
  ∀ g log, I g → Ensures x g Q (fun _ => True) ∧ ∃ more, (∀ e ∈ more, M e.mark) ∧
    exec x' (g, log) = ((exec x g).1, (exec x g).2, log ++ more)

variable {M : Nat → Prop} {I : σ → Prop} {Q Q' : α → σ → Prop} {R : β → σ → Prop} {x : Work σ α}
  {x' : Noting σ α}

theorem Noted.bind {f : α → Work σ β} {f' : α → Noting σ β} (hx : Noted M I Q x x')
    (hf : ∀ a, Noted M (Q a) R (f a) (f' a)) : Noted M I R (x >>= f) (x' >>= f') := by
  intro g log hg
  obtain ⟨hensures, more, hmore, hexec⟩ := hx g log hg
  unfold Ensures at hensures ⊢
  rw [exec_bind, exec_bind, hexec]
  generalize exec x g = p at hensures ⊢
  obtain ⟨e | a, g'⟩ := p
  · exact ⟨trivial, more, hmore, rfl⟩
  · obtain ⟨hensures', more', hmore', hexec'⟩ := hf a g' (log ++ more) hensures
    refine ⟨hensures', more ++ more', ?_, ?_⟩
    · exact fun e he => (List.mem_append.mp he).elim (hmore e) (hmore' e)
    · dsimp only
      rw [hexec', List.append_assoc]

theorem Noted.mono (hx : Noted M I Q x x') (h : ∀ a g, Q a g → Q' a g) : Noted M I Q' x x' :=
  fun g log hg => ⟨(hx g log hg).1.mono h fun _ _ => trivial, (hx g log hg).2⟩

theorem Noted.weaken {J : σ → Prop} (hx : Noted M I Q x x') (h : ∀ g, J g → I g) :
    Noted M J Q x x' := fun g log hg => hx g log (h g hg)

/-- What does not depend on the state may be assumed. -/
theorem Noted.assuming {p : Prop} (h : p → Noted M I Q x x') :
    Noted M (fun g => p ∧ I g) Q x x' := fun g log hg => h hg.1 g log hg.2

/-- What holds of work with its log holds of the work. -/
theorem Noted.leads (hx : Noted M I Q x x') : Leads I Q x := fun g hg => (hx g [] hg).1

theorem noted_quietly (hx : Leads I Q x) : Noted M I Q x (quietly x) := by
  intro g log hg
  refine ⟨hx g hg, [], by simp, ?_⟩
  rw [List.append_nil]
  rfl

theorem noted_pure {a : α} (h : ∀ g, I g → Q a g) : Noted M I Q (pure a) (pure a) := by
  intro g log hg
  refine ⟨leads_pure h g hg, [], by simp, ?_⟩
  rw [List.append_nil]
  rfl

theorem noted_throw (e : Fault) : Noted M I Q (throw e) (throw e) := by
  intro g log hg
  refine ⟨trivial, [], by simp, ?_⟩
  rw [List.append_nil]
  rfl

theorem noted_liftM {y : Except Fault α} :
    Noted M I (fun a g => y = .ok a ∧ I g) (liftM y) (liftM y) := by
  intro g log hg
  refine ⟨leads_liftM g hg, [], by simp, ?_⟩
  rw [List.append_nil]
  cases y <;> rfl

/-- The edit of a mapping is noted before the work goes on. -/
theorem noted_rewrite {v : Value} {fields : Fields} {made : Value × List Edit} {y : Work σ β}
    {f : Value × List Edit → Noting σ β} (hv : ∀ m, v.mark? = some m → M m)
    (hmade : v.withFields fields = made) (h : Noted M I R y (f made)) :
    Noted M I R y (rewrite v fields >>= f) := by
  subst hmade
  intro g log hg
  obtain ⟨hensures, more, hmore, hexec⟩ := h g (log ++ (v.withFields fields).2) hg
  refine ⟨hensures, (v.withFields fields).2 ++ more, ?_, ?_⟩
  · refine fun e he => (List.mem_append.mp he).elim (fun he => ?_) (hmore e)
    exact hv e.mark (Value.mark_of_withFields he)
  · rw [← List.append_assoc, ← hexec]
    rfl

/-- Work without a state, step by step. -/
theorem noted_liftM_bind {y : Except Fault α} {f : α → Except Fault β} {f' : α → Noting σ β}
    (hx : Noted M I Q (liftM y) x') (hf : ∀ a, Noted M (Q a) R (liftM (f a)) (f' a)) :
    Noted M I R (liftM (y >>= f)) (x' >>= f') := by
  have hlift : (liftM (y >>= f) : Work σ β) = liftM y >>= fun a => liftM (f a) := by
    cases y <;> rfl
  rw [hlift]
  exact hx.bind hf

end StepLoom
