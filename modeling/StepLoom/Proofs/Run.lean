import StepLoom.Fault
import Mathlib.Tactic.Common

/-!
# Running work that may fail

Building a graph and claiming step ids are work on a state that may fail and leaves a state in
either case. `exec` runs such work, and the lemmas here say what it does on the building blocks of
the language: sequences, reading and changing the state, failing.

`Ensures` states what holds of the answer and of the faults at once. It is what the proofs about
recursive work carry through their inductions.
-/

namespace StepLoom

variable {σ α β : Type} {g : σ}

/-- Work on a state that may fail. -/
abbrev Work (σ α : Type) : Type := ExceptT Fault (StateM σ) α

/-- What work makes of a state. -/
def exec (x : Work σ α) (g : σ) : Except Fault α × σ := x.run.run g

@[simp] theorem exec_pure (a : α) : exec (pure a : Work σ α) g = (.ok a, g) := rfl

@[simp] theorem exec_throw (e : Fault) : exec (throw e : Work σ α) g = (.error e, g) := rfl

@[simp] theorem exec_get : exec (get : Work σ σ) g = (.ok g, g) := rfl

@[simp] theorem exec_modify (f : σ → σ) : exec (modify f : Work σ Unit) g = (.ok (), f g) := rfl

@[simp] theorem exec_liftM_ok (a : α) :
    exec (liftM (.ok a : Except Fault α) : Work σ α) g = (.ok a, g) := rfl

@[simp] theorem exec_liftM_error (e : Fault) :
    exec (liftM (.error e : Except Fault α) : Work σ α) g = (.error e, g) := rfl

theorem exec_bind (x : Work σ α) (f : α → Work σ β) : exec (x >>= f) g =
    match exec x g with
    | (.ok a, g') => exec (f a) g'
    | (.error e, g') => (.error e, g') := by
  rw [exec, ExceptT.run_bind, StateT.run_bind]
  change (match x.run.run g with | (r, g') => _) = _
  rw [exec]
  rcases x.run.run g with ⟨r | a, g'⟩ <;> rfl

theorem exec_bind_ok {x : Work σ α} {f : α → Work σ β} {a : α} {g' : σ}
    (h : exec x g = (.ok a, g')) : exec (x >>= f) g = exec (f a) g' := by
  rw [exec_bind, h]

/-- Sequences do the same if their beginnings do and if they go on alike from each answer. -/
theorem exec_bind_congr {x x' : Work σ α} {f f' : α → Work σ β} (hx : exec x g = exec x' g)
    (hf : ∀ a g', exec x g = (.ok a, g') → exec (f a) g' = exec (f' a) g') :
    exec (x >>= f) g = exec (x' >>= f') g := by
  rw [exec_bind, exec_bind, ← hx]
  rcases h : exec x g with ⟨e | a, g'⟩
  · rfl
  · exact hf a g' h

theorem exec_liftM_bind_congr {v : Except Fault α} {f f' : α → Work σ β}
    (hf : ∀ a, v = .ok a → exec (f a) g = exec (f' a) g) :
    exec (liftM v >>= f) g = exec (liftM v >>= f') g := by
  cases v with
  | ok a => exact hf a rfl
  | error e => rfl

theorem exec_discard (x : Work σ α) : exec (discard x) g =
    match exec x g with
    | (.ok _, g') => (.ok (), g')
    | (.error e, g') => (.error e, g') := by
  have h : discard x = x >>= fun _ => pure () := by
    rw [discard, map_const, Function.comp, map_eq_pure_bind]
  rw [h, exec_bind]
  rcases exec x g with ⟨_ | _, _⟩ <;> rfl

/-! ## Answers and faults -/

/-- The answer satisfies `Q`, and the fault `E`. -/
def Ensures (x : Work σ α) (g : σ) (Q : α → σ → Prop) (E : Fault → Prop) : Prop :=
  match exec x g with
  | (.ok a, g') => Q a g'
  | (.error e, _) => E e

variable {Q Q' : α → σ → Prop} {R : β → σ → Prop} {E E' : Fault → Prop}

theorem Ensures.of_ok {x : Work σ α} (h : Ensures x g Q E) {a : α} {g' : σ}
    (hx : exec x g = (.ok a, g')) : Q a g' := by
  rwa [Ensures, hx] at h

theorem Ensures.of_error {x : Work σ α} (h : Ensures x g Q E) {e : Fault} {g' : σ}
    (hx : exec x g = (.error e, g')) : E e := by
  rwa [Ensures, hx] at h

theorem ensures_of_exec {x : Work σ α} {a : α} {g' : σ} (hx : exec x g = (.ok a, g'))
    (h : Q a g') : Ensures x g Q E := by
  rwa [Ensures, hx]

theorem ensures_pure {a : α} (h : Q a g) : Ensures (pure a) g Q E := h

theorem ensures_throw {e : Fault} (h : E e) : Ensures (throw e) g Q E := h

theorem ensures_true (x : Work σ α) (g : σ) :
    Ensures x g (fun _ _ => True) fun _ => True := by
  rw [Ensures]
  rcases exec x g with ⟨e | a, g'⟩ <;> trivial

theorem Ensures.with_exec {x : Work σ α} (h : Ensures x g Q E) :
    Ensures x g (fun a g' => exec x g = (.ok a, g') ∧ Q a g') E := by
  unfold Ensures at h ⊢
  rcases hx : exec x g with ⟨e | a, g'⟩
  · rwa [hx] at h
  · rw [hx] at h
    exact ⟨rfl, h⟩

/-- Lifted work has the same answer and leaves the state alone. -/
theorem ensures_liftM {x : Except Fault α} (h : ∀ a, x = .ok a → Q a g)
    (he : ∀ e, x = .error e → E e) : Ensures (liftM x) g Q E := by
  cases x with
  | ok a => exact h a rfl
  | error e => exact he e rfl

theorem Ensures.bind {x : Work σ α} {f : α → Work σ β} (hx : Ensures x g Q E)
    (hf : ∀ a g', Q a g' → Ensures (f a) g' R E) : Ensures (x >>= f) g R E := by
  unfold Ensures at hx ⊢
  rw [exec_bind]
  rcases h : exec x g with ⟨e | a, g'⟩
  · simpa [h] using hx
  · rw [h] at hx
    exact hf a g' hx

theorem ensures_bind_exec {x : Work σ α} {f : α → Work σ β} {a : α} {g' : σ}
    (hx : exec x g = (.ok a, g')) (hf : Ensures (f a) g' R E) : Ensures (x >>= f) g R E := by
  rwa [Ensures, exec_bind_ok hx]

theorem ensures_bind_error {x : Work σ α} {f : α → Work σ β} {e : Fault} {g' : σ}
    (hx : exec x g = (.error e, g')) (he : E e) : Ensures (x >>= f) g R E := by
  rwa [Ensures, exec_bind, hx]

theorem Ensures.mono {x : Work σ α} (h : Ensures x g Q E) (hQ : ∀ a g', Q a g' → Q' a g')
    (hE : ∀ e, E e → E' e) : Ensures x g Q' E' := by
  unfold Ensures at h ⊢
  rcases hx : exec x g with ⟨e | a, g'⟩
  · rw [hx] at h
    exact hE e h
  · rw [hx] at h
    exact hQ a g' h

/-! ## From some states to others -/

/-- From states with `I` the work comes to answers and states with `Q`, unless it fails. -/
def Leads (I : σ → Prop) (Q : α → σ → Prop) (x : Work σ α) : Prop :=
  ∀ g, I g → Ensures x g Q fun _ => True

variable {I J : σ → Prop}

theorem Leads.bind {x : Work σ α} {f : α → Work σ β} (hx : Leads I Q x)
    (hf : ∀ a, Leads (Q a) R (f a)) : Leads I R (x >>= f) :=
  fun g hg => (hx g hg).bind fun a g' ha => hf a g' ha

theorem Leads.mono {x : Work σ α} (hx : Leads I Q x) (h : ∀ a g, Q a g → Q' a g) : Leads I Q' x :=
  fun g hg => (hx g hg).mono h fun _ _ => trivial

/-- What does not depend on the state may be assumed. -/
theorem Leads.assuming {p : Prop} {x : Work σ α} (h : p → Leads I Q x) :
    Leads (fun g => p ∧ I g) Q x := fun g hg => h hg.1 g hg.2

theorem leads_pure {a : α} (h : ∀ g, I g → Q a g) : Leads I Q (pure a) := h

theorem leads_throw (e : Fault) : Leads I Q (throw e) := fun _ _ => trivial

theorem leads_get : Leads I (fun a g => a = g ∧ I g) get := fun _ hg => ⟨rfl, hg⟩

theorem leads_modify {f : σ → σ} (h : ∀ g, I g → J (f g)) :
    Leads I (fun _ => J) (modify f) := h

theorem leads_liftM {x : Except Fault α} : Leads I (fun a g => x = .ok a ∧ I g) (liftM x) :=
  fun _ hg => ensures_liftM (fun _ ha => ⟨ha, hg⟩) fun _ _ => trivial

theorem Leads.discard {x : Work σ α} (h : Leads I (fun _ => J) x) :
    Leads I (fun _ => J) (Functor.discard x) := by
  have hdiscard : Functor.discard x = x >>= fun _ => pure () := by
    rw [Functor.discard, map_const, Function.comp, map_eq_pure_bind]
  rw [hdiscard]
  exact h.bind fun _ => leads_pure fun _ hg => hg

/-! ## Answers from any state -/

/-- Whatever the state, an answer of the work satisfies `P`. -/
def Answers (P : α → Prop) (x : Work σ α) : Prop := ∀ g, Ensures x g (fun a _ => P a) fun _ => True

variable {P : α → Prop} {P' : β → Prop}

theorem Answers.bind {x : Work σ α} {f : α → Work σ β} (hx : Answers P x)
    (hf : ∀ a, P a → Answers P' (f a)) : Answers P' (x >>= f) :=
  fun g => (hx g).bind fun a g' ha => hf a ha g'

/-- Work of which nothing needs to be known goes first. -/
theorem answers_behind {x : Work σ α} {f : α → Work σ β} (hf : ∀ a, Answers P' (f a)) :
    Answers P' (x >>= f) :=
  fun g => (ensures_true x g).bind fun a g' _ => hf a g'

theorem answers_pure {a : α} (h : P a) : Answers P (pure a : Work σ α) := fun _ => ensures_pure h

theorem answers_liftM {x : Except Fault α} : Answers (fun a => x = .ok a) (liftM x : Work σ α) :=
  fun _ => ensures_liftM (fun _ h => h) fun _ _ => trivial

/-- Work that goes on alike from all its answers. -/
theorem Answers.bind_congr {x : Work σ α} {f f' : α → Work σ β} (hx : Answers P x)
    (hf : ∀ a, P a → f a = f' a) : x >>= f = x >>= f' := by
  funext g
  change exec (x >>= f) g = exec (x >>= f') g
  exact exec_bind_congr rfl fun a g' ha => congrArg (exec · g') (hf a ((hx g).of_ok ha))

/-! ## Work that leaves no state when it fails -/

theorem run_bind_ok {x : StateT σ (Except Fault) α} {f : α → StateT σ (Except Fault) β}
    {a : α} {g' : σ} (h : x.run g = .ok (a, g')) : (x >>= f).run g = (f a).run g' := by
  rw [StateT.run_bind, h]
  rfl

end StepLoom
