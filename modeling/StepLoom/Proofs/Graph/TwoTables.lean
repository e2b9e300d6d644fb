import StepLoom.Compile.Job
import StepLoom.Proofs.Graph.Changes
import StepLoom.Proofs.Graph.Depth

/-!
# References under two tables

Two tables agree on some names if they have the same definitions under them and these definitions
list no other names (`Setup.Agree`).

**Theorem (`useSetup_agree`).** A reference to such a name does the same under both tables, on any
graph whatever, and fails at the same place for the same fault if it fails.

The recursion looks up one name after another and otherwise depends on a table by the depth that it
starts with. So the two runs go through the same graphs step by step, as long as neither runs out of
depth; `DeepEnough` says for each of them that it does not, in terms of its own table and of the
graph that both have come to.
-/

namespace StepLoom

open Setup

/-- Two mappings that have the same definitions under some names, which list only such names. -/
structure Setup.Agree (R : Value → Prop) (table table' : Value) : Prop where
  fields : ∃ fields, table.fields? = some fields
  fields' : ∃ fields, table'.fields? = some fields
  find? : ∀ name, R name → find? table name = Setup.find? table' name
  closed : ∀ name d, R name → Setup.find? table name = .ok (some d) → ∀ n, Lists d n → R n

namespace Graph

variable {R : Value → Prop} {table table' name : Value} {g : Graph} {x : String}
  {ids : List String} {depth depth' : Nat}

/-- The depth suffices for a name, if it has a text. -/
def Deep (table : Value) (g : Graph) (name : Value) (depth : Nat) : Prop :=
  1 ≤ depth ∧ ∀ text, name.text = .ok text → DeepEnough (allTexts table) g text depth

theorem deep_start : Deep table g name (referenceCount table + 2) :=
  ⟨by omega, fun _ _ => .start (by have := length_allTexts_le table; omega)⟩

/-- What a definition lists is one level deeper, once the setup has a node. -/
theorem Deep.inner {g' : Graph} {text : String} {d n : Value}
    (hfields : ∃ fields, table.fields? = some fields) (h : Deep table g name (depth + 1))
    (htext : name.text = .ok text) (hnew : ¬ g.has (setupId text)) (hwide : g.Widened g')
    (hhas : g'.has (setupId text)) (hd : Setup.find? table name = .ok (some d)) (hn : Lists d n) :
    Deep table g' n depth := by
  obtain ⟨fields, hfields⟩ := hfields
  have hdepth := (h.2 text htext).2 hnew
  refine ⟨by omega, fun m hm => ?_⟩
  exact (h.2 text htext).inner hnew (fun _ => hwide.has) hhas (mem_allTexts hfields hd hn hm)

/-- Names that are resolved alike on all larger graphs are awaited alike. -/
theorem exec_awaitEach_congr {add add' : Value → Build String} {names : List Value}
    (hmakes : ∀ n, Makes Node.Unguarded (add n))
    (h : ∀ n ∈ names, ∀ g', g.Widened g' → exec (add n) g' = exec (add' n) g') :
    exec (awaitEach x add names) g = exec (awaitEach x add' names) g := by
  induction names generalizing g with
  | nil => rfl
  | cons n rest ih =>
    rw [awaitEach, awaitEach]
    refine exec_bind_congr (h n List.mem_cons_self g (.refl g)) fun y g₁ hadd => ?_
    refine exec_bind_congr rfl fun _ g₂ hedge => ih fun m hm g' hg' => ?_
    have hedges : Makes Node.Unguarded (addEdge x y) := makes_addEdge x y
    exact h m (List.mem_cons_of_mem n hm) g'
      (((hmakes n).widened hadd).trans ((hedges.widened hedge).trans hg'))

/-- A new setup, whose names are resolved alike once the graph has its node. -/
theorem exec_addSetup_congr {add add' : Value → Build String} {d : Value}
    (hmakes : ∀ n, Makes Node.Unguarded (add n))
    (h : ∀ g₁, g.Widened g₁ → g₁.has x → ∀ n, Lists d n → exec (add n) g₁ = exec (add' n) g₁) :
    exec (do
        addNode x .setup d ids
        match d.fields? with
        | some fields => awaitEach x add (← Graph.names (Fields.get? "setup" fields))
        | none => pure ()
        return x) g =
      exec (do
        addNode x .setup d ids
        match d.fields? with
        | some fields => awaitEach x add' (← Graph.names (Fields.get? "setup" fields))
        | none => pure ()
        return x) g := by
  refine exec_bind_congr rfl fun _ g₁ hadd => ?_
  have hany : Makes (fun _ => True) (addNode x .setup d ids) := makes_addNode trivial
  have hwide : g.Widened g₁ := hany.widened hadd
  have hnew : g₁.has x := by
    have hhas : (exec (addNode x .setup d ids) g).2.has x := has_of_addNode
    rwa [hadd] at hhas
  cases hfields : d.fields? with
  | none => rfl
  | some fields =>
    dsimp only
    rw [Graph.names]
    refine exec_liftM_bind_congr fun names hnames => ?_
    have hlists : ∀ n ∈ names, Lists d n := fun n hn =>
      ⟨names, by rw [Value.part, hfields]; exact hnames, hn⟩
    refine exec_bind_congr (exec_awaitEach_congr hmakes fun n hn g₂ hg₂ => ?_) fun _ _ _ => rfl
    exact h g₂ (hwide.trans hg₂) (hg₂.has hnew) n (hlists n hn)

/-- **References to names on which two tables agree**, each followed with enough depth for its own
table. -/
theorem exec_useSetupWithin_agree (h : Agree R table table') (hname : R name)
    (hdeep : Deep table g name depth) (hdeep' : Deep table' g name depth') :
    exec (useSetupWithin table depth name ids) g =
      exec (useSetupWithin table' depth' name ids) g := by
  induction depth generalizing g name ids depth' with
  | zero => exact absurd hdeep.1 (by omega)
  | succ depth ih =>
    obtain ⟨depth', rfl⟩ : ∃ k, depth' = k + 1 := ⟨depth' - 1, by have := hdeep'.1; omega⟩
    rw [useSetupWithin, useSetupWithin]
    refine exec_liftM_bind_congr fun text htext => ?_
    generalize (if name.equal (.str checkoutSetup) then [] else ids) = own
    rw [exec_bind_ok exec_get, exec_bind_ok exec_get]
    by_cases hhas : g.has (setupId text)
    · rw [if_pos hhas, if_pos hhas]
    rw [if_neg hhas, if_neg hhas]
    have hfind := h.find? name hname
    rw [← hfind]
    refine exec_liftM_bind_congr fun found hfound => ?_
    cases found with
    | none => rfl
    | some d =>
      refine exec_addSetup_congr (fun n => makes_useSetupWithin table depth n own)
        fun g₁ hg₁ hnew n hn => ih (h.closed name d hname hfound n hn) ?_ ?_
      · exact hdeep.inner h.fields htext hhas hg₁ hnew hfound hn
      · exact hdeep'.inner h.fields' htext hhas hg₁ hnew (hfind.symm.trans hfound) hn

/-- Both tables give depth enough for themselves, so the two programs are the same. -/
theorem useSetup_agree (h : Agree R table table') (hname : R name) :
    useSetup table name ids = useSetup table' name ids :=
  funext fun _ => exec_useSetupWithin_agree h hname deep_start deep_start

theorem awaitSetups_agree {setup : Option Value} (h : Agree R table table')
    (hnames : ∀ names, Value.oneOrMany setup = .ok names → ∀ n ∈ names, R n) :
    awaitSetups table x setup ids = awaitSetups table' x setup ids := by
  refine answers_liftM.bind_congr fun names hlisted => funext fun g => ?_
  exact exec_awaitEach_congr (fun n => makes_useSetupWithin table _ n ids) fun n hn g' _ =>
    congrArg (exec · g') (useSetup_agree h (hnames names hlisted n hn))

theorem useSetups_agree {names : List Value} (h : Agree R table table')
    (hnames : ∀ n ∈ names, R n) :
    useSetups table names = useSetups table' names := by
  induction names with
  | nil => rfl
  | cons n rest ih =>
    have hnames := List.forall_mem_cons.mp hnames
    rw [useSetups, useSetups, useSetup_agree h hnames.1, ih hnames.2]

end Graph

end StepLoom
