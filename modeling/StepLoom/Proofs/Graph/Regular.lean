import StepLoom.Proofs.Graph.Building

/-!
# Nodes that are as their kinds say

The id of a node tells its kind, and its kind tells what it may wait for: a step for anything, a
setup for setups and path checks, a path check for the checkout. A node is conditioned on path
checks that it waits for, and a path check always runs.

`Node.Regular` says so of one node. Since ids tell kinds, it does not look at the graph around the
node, so what a change makes of the other nodes does not matter to it. A graph is `Regular` if it is
well formed and all its nodes are regular.

**Theorem (`maintained_regular`, `regular_addJob`).** The changes of which building is made keep a
graph regular. So the building of a job leaves a regular graph, whatever the job and the table hold
and also if it fails.

Conditions are put on a node when it is created, and widened or dropped by walks that start
elsewhere. In a regular graph every node waits for the path checks that it is conditioned on
(`Scoped`), so in the graph of every job (`scoped_of_ofJob`).
-/

namespace StepLoom

/-- A node that is as its kind says. -/
structure Node.Regular (n : Node) : Prop where
  named : n.kind.Names n.id
  awaits : ∀ y ∈ n.before, n.kind.Awaits y
  deps : ∀ l, n.pathDeps = some l →
    n.kind ≠ .paths ∧ l ≠ [] ∧ l.Nodup ∧ ∀ p ∈ l, p ∈ n.before ∧ Graph.IsCheck p

namespace Node.Regular

variable {n : Node} {ids : List String} {y : String}

theorem refill (h : n.Regular) (content : Value) : Node.Regular { n with content } :=
  ⟨h.named, h.awaits, h.deps⟩

/-- A node as it is when it is added. -/
theorem fresh {x : String} {kind : Kind} {content : Value} (hname : kind.Names x)
    (hids : ∀ p ∈ ids, Graph.IsCheck p) (hcheck : kind = .paths → ids = []) :
    Node.Regular ⟨x, kind, content, Graph.conditions ids, addAll [] ids, []⟩ where
  named := hname
  awaits y hy := by
    have hy : y ∈ ids := by simpa using hy
    refine Kind.awaits_check (fun hk => ?_) (hids y hy)
    rw [hcheck hk] at hy
    cases hy
  deps l hl := by
    obtain ⟨rfl, hne⟩ := Graph.conditions_eq_some hl
    refine ⟨mt hcheck hne, addAll_ne_nil hne, nodup_addAll List.nodup_nil, fun p hp => ⟨hp, ?_⟩⟩
    exact hids p (by simpa using hp)

/-- A node that waits for one thing more. -/
theorem await (h : n.Regular) (hy : n.kind.Awaits y) :
    Node.Regular { n with before := addOnce y n.before } where
  named := h.named
  awaits z hz := by
    rcases mem_addOnce.mp hz with hz | rfl
    · exact h.awaits z hz
    · exact hy
  deps l hl := by
    obtain ⟨hk, hne, hnodup, hall⟩ := h.deps l hl
    exact ⟨hk, hne, hnodup, fun p hp => ⟨mem_addOnce.mpr (Or.inl (hall p hp).1), (hall p hp).2⟩⟩

/-- A node that a walk has come across. -/
theorem touched (h : n.Regular) (hids : ∀ p ∈ ids, Graph.IsCheck p) : (n.touched ids).Regular := by
  rcases Graph.touched_cases ids n with ⟨ht, -⟩ | ⟨ht, -⟩ | ⟨l, hl, hne, -, ht⟩
  · rw [ht]
    exact ⟨h.named, h.awaits, by simp⟩
  · rwa [ht]
  · rw [ht]
    obtain ⟨hk, -, hnodup, hall⟩ := h.deps l hl
    refine ⟨h.named, fun y hy => ?_, fun l' hl' => ?_⟩
    · rcases mem_addAll.mp hy with hy | hy
      · exact h.awaits y hy
      · exact Kind.awaits_check hk (hids y hy)
    · obtain rfl := Option.some.inj hl'
      refine ⟨hk, addAll_ne_nil hne, nodup_addAll hnodup, fun p hp => ?_⟩
      rcases mem_addAll.mp hp with hp | hp
      · exact ⟨mem_addAll.mpr (Or.inl (hall p hp).1), (hall p hp).2⟩
      · exact ⟨mem_addAll.mpr (Or.inr hp), hids p hp⟩

end Node.Regular

namespace Graph

/-- All nodes are as their kinds say. -/
structure Regular (g : Graph) : Prop where
  wf : g.WellFormed
  node : ∀ {x n}, g.look x = some n → n.Regular

variable {g g' : Graph} {x : String} {n : Node}

theorem regular_empty : Regular {} := ⟨wellFormed_empty, fun h => by cases h⟩

theorem Regular.names (hg : g.Regular) (hn : g.look x = some n) : n.kind.Names x := by
  have hnamed := (hg.node hn).named
  rwa [id_of_look hn] at hnamed

/-- A node that is looked up under the id of a kind is of that kind. -/
theorem Regular.kind_eq (hg : g.Regular) {kind : Kind} (hname : kind.Names x)
    (hn : g.look x = some n) : n.kind = kind := (hg.names hn).unique hname

/-- **Building keeps graphs regular.** -/
theorem maintained_regular : Maintained Regular where
  wf := Regular.wf
  add {g x kind ids} content hg hx hname hids hcheck := by
    refine ⟨hg.wf.addFresh hx fun p hp => (hids p hp).1, fun {z n} hn => ?_⟩
    rw [look_addFresh hx] at hn
    split_ifs at hn
    · obtain rfl := Option.some.inj hn
      exact .fresh hname (fun p hp => (hids p hp).2) hcheck
    · exact hg.node hn
  link {g x y} hg hx hy hmay := by
    refine ⟨hg.wf.link hx hy, fun {z n'} hn' => ?_⟩
    rw [look_link, Option.map_eq_some_iff] at hn'
    obtain ⟨n, hn, rfl⟩ := hn'
    split_ifs with hz
    · exact (hg.node hn).await (hmay n.kind (hz ▸ hg.names hn))
    · exact hg.node hn
  refill f hg := by
    refine ⟨hg.wf.map inner_content, fun hn => ?_⟩
    obtain ⟨m, v, hm, rfl⟩ := look_refill hn
    exact (hg.node hm).refill v
  push hg hx hids h := by
    have hpushed := hg.wf.pushedDown hx hids h
    refine ⟨hpushed.wellFormed, fun hn' => ?_⟩
    obtain ⟨n, hn, rfl | rfl⟩ := hpushed.look_cases hn'
    · exact hg.node hn
    · exact (hg.node hn).touched fun p hp => (hids p hp).2

/-- **Building a job leaves a regular graph**, whether it fails or not. -/
theorem regular_addJob (table job : Value) : (exec (addJob table job) {}).2.Regular :=
  (stays_addJob maintained_regular regular_empty).1

/-! ## Conditions that nodes wait for -/

/-- Nodes wait for the path checks that they are conditioned on. -/
structure Scoped (g : Graph) : Prop where
  wf : g.WellFormed
  kinds : ∀ {x n}, g.look x = some n → (n.kind = .paths ↔ IsCheck x)
  deps : ∀ {x n l}, g.look x = some n → n.pathDeps = some l → ∀ p ∈ l, p ∈ n.before ∧ IsCheck p

theorem Regular.scoped {g : Graph} (h : g.Regular) : g.Scoped where
  wf := h.wf
  kinds hn := (h.names hn).paths_iff
  deps hn hl := by
    obtain ⟨-, -, -, hall⟩ := (h.node hn).deps _ hl
    exact hall

/-- **The graph of a job is scoped.** -/
theorem scoped_of_ofJob {g : Graph} {table job : Value} {left : Value × List Edit}
    (h : ofJob table job = .ok (g, left)) : g.Scoped :=
  (maintained_regular.of_ofJob regular_empty h).scoped

end Graph

end StepLoom
