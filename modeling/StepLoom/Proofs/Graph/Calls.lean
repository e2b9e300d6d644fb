import StepLoom.Proofs.Graph.Changes

/-!
# Conditions never narrow

A graph is built by calls of its operations, in any order and with any arguments, and a call that
fails leaves what it made of the graph so far.

**Theorem (`conditions_widen`).** However a graph came about, further calls keep each of its nodes
and only ever add to it: the edges of the node and its conditions grow at their ends, or the
conditions are cleared for good. A node that is added again is not replaced. Once a call of the
setup operations adds the checkout, the checkout always runs.

A call is a sequence of small changes (`Changes`), each of which widens the nodes. That the checkout
runs is kept because the nodes that setups add are `Node.Unguarded`.
-/

namespace StepLoom

namespace Graph

variable {g g' : Graph}

/-! ## The checkout -/

/-- The checkout, if it is there, always runs. -/
def CheckoutRuns (g : Graph) : Prop := ∀ n, g.find? checkoutId = some n → n.pathDeps = none

theorem Change.checkoutRuns (h : Change Node.Unguarded g g') (hg : g.CheckoutRuns) :
    g'.CheckoutRuns := by
  intro n' hn'
  by_cases hhas : g.has checkoutId
  · -- The checkout was there before, so it is the same node, widened.
    obtain ⟨n, hn⟩ := has_iff.mp hhas
    obtain ⟨m, hm, hw⟩ := h.widened checkoutId n hn
    obtain rfl : m = n' := Option.some.inj (hm.symm.trans hn')
    exact hw.unconditional (hg n hn)
  · cases h with
    | @insert new hnew hguard =>
      rw [find?_insert hnew, not_has_iff.mp hhas] at hn'
      split_ifs at hn' with hid
      obtain rfl := Option.some.inj hn'
      exact hguard hid.symm
    | before x y => simp [find?_update, not_has_iff.mp hhas] at hn'
    | after x y => simp [find?_update, not_has_iff.mp hhas] at hn'
    | clear x => simp [find?_update, not_has_iff.mp hhas] at hn'
    | condition x p => simp [find?_update, not_has_iff.mp hhas] at hn'
    | refill f =>
      rw [find?_map (f := fun n => { n with content := f n }) fun _ => rfl,
        not_has_iff.mp hhas] at hn'
      cases hn'

theorem Changes.checkoutRuns (h : Changes Node.Unguarded g g') (hg : g.CheckoutRuns) :
    g'.CheckoutRuns := by
  induction h with
  | refl => exact hg
  | tail _ hlast ih => exact hlast.checkoutRuns ih

theorem Widened.checkoutRuns (h : g.Widened g') (hhas : g.has checkoutId) (hg : g.CheckoutRuns) :
    g'.has checkoutId ∧ g'.CheckoutRuns := by
  obtain ⟨n, hn⟩ := has_iff.mp hhas
  obtain ⟨n', hn', hw⟩ := h checkoutId n hn
  refine ⟨has_iff.mpr ⟨n', hn'⟩, fun m hm => ?_⟩
  obtain rfl : n' = m := Option.some.inj (hn'.symm.trans hm)
  exact hw.unconditional (hg n hn)

/-! ## Calls -/

/-- A call of one of the operations that build a graph. -/
inductive Call where
  | addNode (id : String) (kind : Kind) (content : Value) (pathIds : List String)
  | addEdge (id dep : String)
  | useCheck (patterns : List String)
  | useSetup (table name : Value) (pathIds : List String)
  | awaitSetups (table : Value) (id : String) (setup : Option Value) (pathIds : List String)
  | pushDown (id : String) (pathIds : List String)
  | addStep (table : Value) (index : Nat) (step : Value)
  | awaitCheckout

namespace Call

def run : Call → Build Unit
  | addNode id kind content pathIds => Graph.addNode id kind content pathIds
  | addEdge id dep => Graph.addEdge id dep
  | useCheck patterns => discard (Graph.useCheck patterns)
  | useSetup table name pathIds => discard (Graph.useSetup table name pathIds)
  | awaitSetups table id setup pathIds => Graph.awaitSetups table id setup pathIds
  | pushDown id pathIds => Graph.pushDown id pathIds
  | addStep table index step => discard (Graph.addStep table index step)
  | awaitCheckout => Graph.awaitCheckout

/-- The graph after a call, whether it fails or not. -/
def result (g : Graph) (c : Call) : Graph := (exec c.run g).2

/-- The call refers to setups, and so may add them. -/
def RefersToSetups : Call → Prop
  | useSetup .. | awaitSetups .. | addStep .. => True
  | _ => False

theorem makes_run (c : Call) : Makes (fun _ => True) c.run := by
  have hany : ∀ {α : Type} {w : Build α}, Makes Node.Unguarded w → Makes (fun _ => True) w :=
    fun h g => (h g).mono fun _ _ => trivial
  cases c with
  | addNode => exact makes_addNode trivial
  | addEdge => exact makes_addEdge _ _
  | useCheck => exact hany (makes_useCheck _).discard
  | useSetup => exact hany (makes_useSetupWithin _ _ _ _).discard
  | awaitSetups => exact hany (makes_awaitSetups _ _ _ _)
  | pushDown => exact makes_pushDown _ _
  | addStep => exact hany (makes_addStep _ _ _).discard
  | awaitCheckout => exact makes_awaitCheckout

theorem makes_run_of_refers {c : Call} (h : c.RefersToSetups) : Makes Node.Unguarded c.run := by
  cases c with
  | useSetup => exact (makes_useSetupWithin _ _ _ _).discard
  | awaitSetups => exact makes_awaitSetups _ _ _ _
  | addStep => exact (makes_addStep _ _ _).discard
  | addNode | addEdge | useCheck | pushDown | awaitCheckout => exact h.elim

end Call

/-- The graph that some calls make of an empty one. -/
def built (calls : List Call) : Graph := calls.foldl Call.result {}

theorem built_append (calls more : List Call) :
    built (calls ++ more) = more.foldl Call.result (built calls) := List.foldl_append

theorem widened_foldl (calls : List Call) (g : Graph) : g.Widened (calls.foldl Call.result g) := by
  induction calls generalizing g with
  | nil => exact .refl g
  | cons c rest ih => exact (c.makes_run g).widened.trans (ih (c.result g))

/-- **Conditions never narrow.** -/
theorem conditions_widen (earlier : List Call) (call : Call) (later : List Call) :
    (built earlier).Widened (built (earlier ++ call :: later)) ∧
      (∀ id kind content pathIds, call = .addNode id kind content pathIds →
        (built earlier).has id → built (earlier ++ [call]) = built earlier) ∧
      (call.RefersToSetups → ¬ (built earlier).has checkoutId →
        (built (earlier ++ [call])).has checkoutId →
        ∃ n, (built (earlier ++ call :: later)).find? checkoutId = some n ∧ n.pathDeps = none) := by
  have hcall : built (earlier ++ [call]) = call.result (built earlier) := built_append _ _
  have hall : built (earlier ++ call :: later) =
      later.foldl Call.result (call.result (built earlier)) := built_append _ _
  refine ⟨?_, ?_, fun hsetup hbefore hafter => ?_⟩
  · rw [built_append]
    exact widened_foldl _ _
  · rintro id kind content pathIds rfl hid
    rw [hcall, Call.result, Call.run, exec_addNode_old hid]
  · have hopen : (built earlier).CheckoutRuns := fun n hn => by
      rw [not_has_iff.mp hbefore] at hn
      cases hn
    have hruns := (call.makes_run_of_refers hsetup _).checkoutRuns hopen
    rw [hcall] at hafter
    obtain ⟨hhas, hlater⟩ := (widened_foldl later _).checkoutRuns hafter hruns
    obtain ⟨n, hn⟩ := has_iff.mp hhas
    rw [hall]
    exact ⟨n, hn, hlater n hn⟩

/-- Setups of which one needs the checkout and one that is not defined. -/
def halfKnown : Value := .record [("checkout", .list []),
  ("tools", .record [("setup", .list [.str "checkout", .str "gone"])])]

/-- A reference under a path check, which fails at the undefined setup. -/
def failingCall : Call := .useSetup halfKnown (.str "tools") [Check.nodeId ["src/*"]]

/-- What the failed call has added by then is a checkout that runs, and a later reference under the
path check leaves it so. -/
theorem conditions_widen_halfKnown :
    (exec failingCall.run (built [.useCheck ["src/*"]])).1.toOption = none ∧
      ∃ n, (built [.useCheck ["src/*"], failingCall,
        .pushDown (setupId "tools") [Check.nodeId ["src/*"]]]).find? checkoutId = some n ∧
        n.pathDeps = none :=
  ⟨by decide, (conditions_widen [.useCheck ["src/*"]] failingCall
    [.pushDown (setupId "tools") [Check.nodeId ["src/*"]]]).2.2 trivial (by decide) (by decide)⟩

end Graph

end StepLoom
