import StepLoom.Proofs.Graph.Phases
import StepLoom.Proofs.Graph.Run
import StepLoom.Proofs.Needs
import StepLoom.Proofs.Spelling
import Mathlib.Logic.Relation

/-!
# What building does to a graph

Every operation that builds a graph is made of a few small changes: a node is added, an edge is
recorded at one of its ends, conditions are added or cleared, contents are replaced. `Change` lists
them, and `Makes` says that an operation makes such changes only, on any graph whatever and up to
the point where it fails if it fails.

What each small change maintains is then maintained by every operation, by one induction over
`Changes`. So nodes are only ever widened (`Changes.widened`).

The nodes that are added are subject to a condition of their own. The one of interest is
`Node.Unguarded`: where a setup is added as the checkout, it is added without conditions.
-/

namespace StepLoom

/-! ## Changes -/

/-- The node always runs if it is the checkout. -/
def Node.Unguarded (n : Node) : Prop := n.id = Graph.checkoutId → n.pathDeps = none

/-- What building may make of a node. -/
structure Node.Widened (n n' : Node) : Prop where
  id : n'.id = n.id
  kind : n'.kind = n.kind
  unconditional : n.pathDeps = none → n'.pathDeps = none
  conditional : ∀ l, n.pathDeps = some l →
    n'.pathDeps = none ∨ ∃ l', n'.pathDeps = some l' ∧ l <+: l'
  before : n.before <+: n'.before
  after : n.after <+: n'.after

theorem prefix_addOnce (x : String) (xs : List String) : xs <+: addOnce x xs := by
  unfold addOnce
  split_ifs
  · exact List.prefix_refl xs
  · exact List.prefix_append xs [x]

namespace Node.Widened

variable {m n k : Node}

theorem refl (n : Node) : n.Widened n :=
  ⟨rfl, rfl, fun h => h, fun l h => Or.inr ⟨l, h, List.prefix_refl l⟩,
    List.prefix_refl _, List.prefix_refl _⟩

theorem trans (h : m.Widened n) (h' : n.Widened k) : m.Widened k where
  id := h'.id.trans h.id
  kind := h'.kind.trans h.kind
  unconditional hm := h'.unconditional (h.unconditional hm)
  conditional l hl := by
    obtain hnone | ⟨l', hl', hle⟩ := h.conditional l hl
    · exact Or.inl (h'.unconditional hnone)
    · obtain hnone | ⟨l'', hl'', hle'⟩ := h'.conditional l' hl'
      · exact Or.inl hnone
      · exact Or.inr ⟨l'', hl'', hle.trans hle'⟩
  before := h.before.trans h'.before
  after := h.after.trans h'.after

end Node.Widened

namespace Graph

/-- A small change to a graph. `P` is what is known about nodes that are added. -/
inductive Change (P : Node → Prop) : Graph → Graph → Prop
  | insert {g : Graph} {n : Node} (hnew : ¬ g.has n.id) (hn : P n) : Change P g (g.insert n)
  | before {g : Graph} (x y : String) :
      Change P g (g.update x fun n => { n with before := addOnce y n.before })
  | after {g : Graph} (x y : String) :
      Change P g (g.update x fun n => { n with after := addOnce y n.after })
  | clear {g : Graph} (x : String) : Change P g (g.update x fun n => { n with pathDeps := none })
  | condition {g : Graph} (x p : String) :
      Change P g (g.update x fun n => { n with pathDeps := n.pathDeps.map (addOnce p) })
  | refill {g : Graph} (f : Node → Value) :
      Change P g ⟨g.nodes.map fun n => { n with content := f n }⟩

/-- Any number of small changes. -/
abbrev Changes (P : Node → Prop) : Graph → Graph → Prop := Relation.ReflTransGen (Change P)

/-- The work only makes small changes, whether it fails or not. -/
def Makes {α : Type} (P : Node → Prop) (x : Build α) : Prop := ∀ g, Changes P g (exec x g).2

variable {α β : Type} {P Q : Node → Prop} {g g' g'' : Graph} {x y : String} {ids : List String}

theorem Changes.mono (h : Changes P g g') (hPQ : ∀ n, P n → Q n) : Changes Q g g' := by
  refine h.lift id fun g g' hc => ?_
  cases hc with
  | insert hnew hn => exact .insert hnew (hPQ _ hn)
  | before x y => exact .before x y
  | after x y => exact .after x y
  | clear x => exact .clear x
  | condition x p => exact .condition x p
  | refill f => exact .refill f

/-! ## Putting work together -/

theorem Makes.bind {w : Build α} {f : α → Build β} (hw : Makes P w) (hf : ∀ a, Makes P (f a)) :
    Makes P (w >>= f) := by
  intro g
  have hg := hw g
  rw [exec_bind]
  generalize exec w g = r at hg ⊢
  obtain ⟨e | a, g₁⟩ := r
  · exact hg
  · exact hg.trans (hf a g₁)

theorem makes_pure (a : α) : Makes P (pure a) := fun _ => .refl

theorem makes_throw (e : Fault) : Makes P (throw e : Build α) := fun _ => .refl

theorem makes_get : Makes P get := fun _ => .refl

theorem makes_liftM (v : Except Fault α) : Makes P (liftM v) := by
  intro g
  cases v with
  | ok a => exact .refl
  | error e => exact .refl

/-- What is worked out beforehand may be known. -/
theorem makes_liftM_bind {v : Except Fault α} {f : α → Build β}
    (hf : ∀ a, v = .ok a → Makes P (f a)) : Makes P (liftM v >>= f) := by
  cases v with
  | ok a => exact fun g => hf a rfl g
  | error e => exact fun _ => .refl

theorem makes_modify {f : Graph → Graph} (h : ∀ g, Change P g (f g)) : Makes P (modify f) :=
  fun g => .single (h g)

theorem Makes.discard {w : Build α} (h : Makes P w) : Makes P (discard w) := by
  intro g
  have hg := h g
  rw [exec_discard]
  generalize exec w g = r at hg ⊢
  obtain ⟨e | a, g₁⟩ := r
  · exact hg
  · exact hg

/-! ## Nodes and edges -/

theorem makes_node (x : String) : Makes P (node x) :=
  makes_get.bind fun g => by
    cases g.find? x with
    | none => exact makes_throw _
    | some n => exact makes_pure n

theorem makes_addEdge (x y : String) : Makes P (addEdge x y) :=
  (makes_node x).discard.bind fun _ => (makes_modify fun _ => .before x y).bind fun _ =>
    (makes_node y).discard.bind fun _ => makes_modify fun _ => .after y x

theorem makes_addEdges (x : String) (ys : List String) : Makes P (addEdges x ys) := by
  induction ys with
  | nil => exact makes_pure ()
  | cons y ys ih => exact (makes_addEdge x y).bind fun _ => ih

theorem makes_addNode {kind : Kind} {content : Value}
    (hP : P
      { id := x, kind, content,
        pathDeps := if ids.isEmpty then none else some (distinct ids) }) :
    Makes P (addNode x kind content ids) := by
  intro g
  rw [addNode, exec_bind_ok exec_get]
  by_cases hx : g.has x
  · rw [if_pos hx]
    exact .refl
  · rw [if_neg hx]
    dsimp only
    rw [exec_bind_ok (exec_modify _)]
    exact .head (.insert hx hP) (makes_addEdges x ids _)

/-- Nodes that are not the checkout. -/
theorem makes_addNode_of_ne {kind : Kind} {content : Value} (hx : x ≠ checkoutId) :
    Makes Node.Unguarded (addNode x kind content ids) :=
  makes_addNode fun h => absurd h hx

theorem makes_useCheck (patterns : List String) : Makes Node.Unguarded (useCheck patterns) :=
  (makes_addNode_of_ne setupId_ne_nodeId.symm).bind fun _ => makes_pure _

/-! ## Conditions -/

theorem makes_conditionOn (x : String) (ids : List String) : Makes P (conditionOn x ids) := by
  induction ids with
  | nil => exact makes_pure ()
  | cons p ids ih =>
    exact (makes_modify fun _ => .condition x p).bind fun _ => (makes_addEdge x p).bind fun _ => ih

theorem makes_revisit (ids : List String) (x : String) : Makes P (revisit ids x) := by
  refine (makes_node x).bind fun n => ?_
  dsimp only
  split_ifs
  · exact (makes_modify fun _ => .clear x).bind fun _ => makes_pure _
  · exact makes_pure _
  · exact (makes_conditionOn x ids).bind fun _ => (makes_node x).bind fun _ => makes_pure _
  · exact (makes_node x).bind fun _ => makes_pure _

theorem makes_pushDownFrom (ids : List String) (fuel : Nat) (stack seen : List String) :
    Makes P (pushDownFrom ids fuel stack seen) := by
  induction fuel generalizing stack seen with
  | zero => exact makes_pure ()
  | succ fuel ih =>
    cases stack with
    | nil => exact makes_pure ()
    | cons x stack =>
      rw [pushDownFrom]
      split_ifs
      · exact ih stack seen
      · exact (makes_revisit ids x).bind fun next => ih (next ++ stack) (x :: seen)

theorem makes_pushDown (x : String) (ids : List String) : Makes P (pushDown x ids) :=
  makes_get.bind fun _ => makes_pushDownFrom _ _ _ _

/-! ## Setups -/

theorem makes_awaitEach {add : Value → Build String} {names : List Value}
    (hadd : ∀ name ∈ names, Makes P (add name)) (x : String) : Makes P (awaitEach x add names) := by
  induction names with
  | nil => exact makes_pure ()
  | cons name rest ih =>
    obtain ⟨hname, hrest⟩ := List.forall_mem_cons.mp hadd
    exact hname.bind fun y => (makes_addEdge x y).bind fun _ => ih hrest

/-- A setup is added as the checkout only under its name, and then without conditions. -/
theorem makes_addSetup {name definition : Value} {text : String} (h : name.text = .ok text)
    (hids : name = .str checkoutSetup → ids = []) :
    Makes Node.Unguarded (addNode (setupId text) .setup definition ids) := by
  refine makes_addNode fun hid => ?_
  obtain rfl := setupId_inj.mp hid
  rw [hids (Value.eq_of_text_checkout h)]
  rfl

theorem makes_useSetupWithin (table : Value) (depth : Nat) (name : Value) (ids : List String) :
    Makes Node.Unguarded (useSetupWithin table depth name ids) := by
  induction depth generalizing name ids with
  | zero => exact makes_throw _
  | succ depth ih =>
    rw [useSetupWithin]
    refine makes_liftM_bind fun text htext => ?_
    have hids : name = .str checkoutSetup →
        (if name.equal (.str checkoutSetup) then [] else ids) = [] := by
      rintro rfl
      exact if_pos (by decide)
    generalize (if name.equal (.str checkoutSetup) then [] else ids) = own at hids
    refine makes_get.bind fun g => ?_
    dsimp only
    split_ifs
    · exact (makes_pushDown _ _).bind fun _ => makes_pure _
    · refine (makes_liftM _).bind fun found => ?_
      cases found with
      | none => exact makes_throw _
      | some definition =>
        refine (makes_addSetup htext hids).bind fun _ => ?_
        cases definition.fields? with
        | none => exact makes_pure _
        | some fields =>
          refine (makes_liftM _).bind fun names => ?_
          exact (makes_awaitEach (fun n _ => ih n own) _).bind fun _ => makes_pure _

theorem makes_awaitSetups (table : Value) (x : String) (setup : Option Value) (ids : List String) :
    Makes Node.Unguarded (awaitSetups table x setup ids) :=
  (makes_liftM _).bind fun _ => makes_awaitEach (fun n _ => makes_useSetupWithin table _ n ids) _

/-! ## Steps -/

theorem makes_refresh (isNew : Bool) (x : String) (content : Value) :
    Makes P (refresh isNew x content) := by
  unfold refresh
  split_ifs
  · refine makes_modify fun g => ?_
    rw [update_content]
    exact .refill _
  · exact makes_pure ()

theorem makes_replay (edits : List Edit) : Makes P (replay edits) :=
  makes_modify fun _ => .refill fun n => n.content.applyAll edits

theorem makes_finishStep (table : Value) (index : Nat) (isNew : Bool)
    (popped plain : Value × List Edit) (setup : Option Value) (pathIds : List String) :
    Makes Node.Unguarded (finishStep table index isNew popped plain setup pathIds) := by
  refine (makes_refresh _ _ _).bind fun _ => (makes_replay _).bind fun _ => ?_
  refine (makes_awaitSetups _ _ _ _).bind fun _ => ?_
  refine (makes_refresh _ _ _).bind fun _ => (makes_replay _).bind fun _ => ?_
  split_ifs
  · exact (makes_addEdge _ _).bind fun _ => makes_pure _
  · exact makes_pure _

theorem makes_enterStep (table : Value) (index : Nat) (content : Value)
    (popped plain : Value × List Edit) (setup : Option Value) (pathIds : List String) :
    Makes Node.Unguarded (enterStep table index content popped plain setup pathIds) :=
  makes_get.bind fun _ => (makes_addNode_of_ne setupId_ne_stepId.symm).bind fun _ =>
    makes_finishStep _ _ _ _ _ _ _

theorem makes_usePaths (paths : Option Value) : Makes Node.Unguarded (usePaths paths) := by
  refine (makes_liftM _).bind fun patterns => ?_
  split_ifs
  · exact makes_pure _
  · exact (makes_liftM _).bind fun texts => (makes_useCheck _).bind fun id => makes_pure _

theorem makes_addStep (table : Value) (index : Nat) (step : Value) :
    Makes Node.Unguarded (addStep table index step) := by
  rw [addStep_eq]
  exact (makes_liftM _).bind fun taken => (makes_usePaths _).bind fun ids =>
    makes_enterStep _ _ _ _ _ _ _

/-! ## Path checks and the checkout -/

theorem makes_awaitCheckoutFrom (nodes : List Node) : Makes P (awaitCheckoutFrom nodes) := by
  induction nodes with
  | nil => exact makes_pure ()
  | cons n rest ih =>
    rw [awaitCheckoutFrom]
    split_ifs
    · refine makes_get.bind fun g => ?_
      split_ifs
      · exact (makes_throw _).bind fun _ => (makes_addEdge _ _).bind fun _ => ih
      · exact (makes_addEdge _ _).bind fun _ => ih
    · exact ih

theorem makes_awaitCheckout : Makes P awaitCheckout :=
  makes_get.bind fun g => makes_awaitCheckoutFrom g.nodes

/-! ## What changes leave -/

/-- Each node is still there, and nothing was taken from it. -/
def Widened (g g' : Graph) : Prop :=
  ∀ x n, g.find? x = some n → ∃ n', g'.find? x = some n' ∧ n.Widened n'

theorem Widened.refl (g : Graph) : g.Widened g := fun _ n hn => ⟨n, hn, .refl n⟩

theorem Widened.trans (h : g.Widened g') (h' : g'.Widened g'') : g.Widened g'' := by
  intro x n hn
  obtain ⟨n', hn', hw⟩ := h x n hn
  obtain ⟨n'', hn'', hw'⟩ := h' x n' hn'
  exact ⟨n'', hn'', hw.trans hw'⟩

theorem Widened.has (h : g.Widened g') (hx : g.has x) : g'.has x := by
  obtain ⟨n, hn⟩ := has_iff.mp hx
  obtain ⟨n', hn', -⟩ := h x n hn
  exact has_iff.mpr ⟨n', hn'⟩

/-- Nodes that are each put in the place of one with the same id. -/
theorem widened_of_find? {f : String → Node → Node}
    (hfind : ∀ x, g'.find? x = (g.find? x).map (f x)) (hf : ∀ x n, Node.Widened n (f x n)) :
    g.Widened g' := by
  intro x n hn
  exact ⟨f x n, by rw [hfind, hn, Option.map_some], hf x n⟩

theorem widened_update {f : Node → Node} (hf : ∀ n, Node.Widened n (f n)) :
    g.Widened (g.update x f) :=
  widened_of_find? (fun _ => find?_update fun n => (hf n).id) fun y n => by
    split_ifs
    · exact hf n
    · exact .refl n

theorem Change.widened (h : Change P g g') : g.Widened g' := by
  cases h with
  | @insert new hnew _ =>
    intro x n hn
    have hx : x ≠ new.id := by
      rintro rfl
      exact hnew (has_iff.mpr ⟨n, hn⟩)
    exact ⟨n, by rw [find?_insert hnew, if_neg hx, hn], .refl n⟩
  | before x y =>
    exact widened_update fun n => { Node.Widened.refl n with before := prefix_addOnce y _ }
  | after x y =>
    exact widened_update fun n => { Node.Widened.refl n with after := prefix_addOnce y _ }
  | clear x =>
    exact widened_update fun n =>
      { Node.Widened.refl n with
        unconditional := fun _ => rfl
        conditional := fun _ _ => Or.inl rfl }
  | condition x p =>
    refine widened_update fun n =>
      { Node.Widened.refl n with
        unconditional := ?_
        conditional := ?_ }
    · intro hn
      rw [hn]
      rfl
    · intro l hl
      exact Or.inr ⟨addOnce p l, by rw [hl]; rfl, prefix_addOnce p l⟩
  | refill f =>
    exact widened_of_find? (fun _ => find?_map fun _ => rfl) fun _ n => { Node.Widened.refl n with }

theorem Changes.widened (h : Changes P g g') : g.Widened g' := by
  induction h with
  | refl => exact .refl g
  | tail _ hlast ih => exact ih.trans hlast.widened

theorem Makes.widened {w : Build α} {r : Except Fault α} (h : Makes P w) (hw : exec w g = (r, g')) :
    g.Widened g' := by
  have hg := (h g).widened
  rwa [hw] at hg

/-- What follows some work only widens what that leaves. -/
theorem widened_bind {w : Build α} {f : α → Build β} (hf : ∀ a, Makes P (f a)) :
    (exec w g).2.Widened (exec (w >>= f) g).2 := by
  rw [exec_bind]
  rcases exec w g with ⟨e | a, g₁⟩
  · exact .refl g₁
  · exact (hf a g₁).widened

theorem has_of_addNode {kind : Kind} {content : Value} :
    (exec (addNode x kind content ids) g).2.has x := by
  by_cases hx : g.has x
  · rw [exec_addNode_old hx]
    exact hx
  · rw [addNode, exec_bind_ok exec_get, if_neg hx]
    have hedges : Makes (fun _ => True) (addEdges x ids) := makes_addEdges x ids
    exact (widened_bind fun _ => hedges).has ((has_insert hx).mpr (Or.inr rfl))

/-- The node of a step is there whatever comes of its setups. -/
theorem has_of_enterStep {table content : Value} {index : Nat} {popped plain : Value × List Edit}
    {setup : Option Value} :
    (exec (enterStep table index content popped plain setup ids) g).2.has (stepId index) := by
  rw [enterStep_eq, exec_bind_ok exec_get]
  exact (widened_bind fun _ => makes_finishStep _ _ _ _ _ _ _).has has_of_addNode

end Graph

end StepLoom
