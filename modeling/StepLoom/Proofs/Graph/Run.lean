import StepLoom.Proofs.Graph.Nodes
import StepLoom.Proofs.Run

/-!
# Building blocks of a graph

What the operations that build a graph do when they are run: finding a node, adding edges, adding a
node.
-/

namespace StepLoom

namespace Graph

variable {g : Graph}

/-! ## Nodes and edges -/

theorem exec_node {x : String} {n : Node} (h : g.find? x = some n) :
    exec (node x) g = (.ok n, g) := by
  rw [node, exec_bind_ok exec_get, h]
  rfl

theorem exec_node_none {x : String} (h : ¬ g.has x) :
    exec (node x) g = (.error .missingKey, g) := by
  rw [node, exec_bind_ok exec_get, not_has_iff.mp h]
  rfl

theorem exec_addEdge {x y : String} (hx : g.has x) (hy : g.has y) :
    exec (addEdge x y) g = (.ok (), g.link x y) := by
  obtain ⟨m, hm⟩ := has_iff.mp hx
  have hy' : (g.update x fun n => { n with before := addOnce y n.before }).has y := by
    rw [has_update (by intro; rfl)]
    exact hy
  obtain ⟨n, hn⟩ := has_iff.mp hy'
  have hm' : exec (discard (node x)) g = (.ok (), g) := by rw [exec_discard, exec_node hm]
  rw [addEdge, exec_bind_ok hm', exec_bind_ok (exec_modify _)]
  have hn' := exec_node hn
  rw [exec_bind_ok (by rw [exec_discard, hn']), exec_modify]
  rfl

theorem exec_addEdges {x : String} {ys : List String} (hx : g.has x) (hys : ∀ y ∈ ys, g.has y) :
    exec (addEdges x ys) g = (.ok (), g.linkAll x ys) := by
  induction ys generalizing g with
  | nil => rfl
  | cons y ys ih =>
    rw [addEdges, exec_bind_ok (exec_addEdge hx (hys y (by simp)))]
    exact ih (by simpa using hx) fun z hz => by simpa using hys z (List.mem_cons_of_mem y hz)

/-- The path checks that a new node is conditioned on. -/
def conditions (pathIds : List String) : Option (List String) :=
  if pathIds = [] then none else some (addAll [] pathIds)

/-- The graph with a new node that waits for some path checks. -/
def addFresh (x : String) (kind : Kind) (content : Value) (pathIds : List String) (g : Graph) :
    Graph :=
  (g.insert { id := x, kind, content, pathDeps := conditions pathIds }).linkAll x pathIds

theorem exec_addNode_new {x : String} {kind : Kind} {content : Value} {pathIds : List String}
    (hx : ¬ g.has x) (hp : ∀ p ∈ pathIds, g.has p) :
    exec (addNode x kind content pathIds) g = (.ok (), g.addFresh x kind content pathIds) := by
  have hc : (if pathIds.isEmpty then none else some (distinct pathIds)) = conditions pathIds := by
    rw [conditions, distinct_eq_addAll]
    simp [List.isEmpty_iff]
  rw [addNode, exec_bind_ok exec_get, if_neg hx]
  simp only [hc]
  rw [exec_bind_ok (exec_modify _)]
  exact exec_addEdges ((has_insert hx).mpr (Or.inr rfl))
    fun p h => (has_insert hx).mpr (Or.inl (hp p h))

theorem exec_addNode_old {x : String} {kind : Kind} {content : Value} {pathIds : List String}
    (hx : g.has x) : exec (addNode x kind content pathIds) g = (.ok (), g) := by
  rw [addNode, exec_bind_ok exec_get, if_pos hx]
  rfl

theorem has_addFresh {x y : String} {kind : Kind} {content : Value} {pathIds : List String}
    (hx : ¬ g.has x) : (g.addFresh x kind content pathIds).has y ↔ g.has y ∨ y = x := by
  rw [addFresh, has_linkAll, has_insert hx]

theorem look_addFresh {x y : String} {kind : Kind} {content : Value} {pathIds : List String}
    (hx : ¬ g.has x) : (g.addFresh x kind content pathIds).look y =
      if y = x then some ⟨x, kind, content, conditions pathIds, addAll [] pathIds, []⟩
      else g.look y := by
  rw [addFresh, look_linkAll, look_insert hx]
  split_ifs
  · simp [Node.bare]
  · cases g.look y <;> simp

theorem WellFormed.addFresh (hg : g.WellFormed) {x : String} {kind : Kind} {content : Value}
    {pathIds : List String} (hx : ¬ g.has x) (hp : ∀ p ∈ pathIds, g.has p) :
    (g.addFresh x kind content pathIds).WellFormed :=
  (hg.insert hx rfl rfl).linkAll ((has_insert hx).mpr (Or.inr rfl))
    fun p h => (has_insert hx).mpr (Or.inl (hp p h))

end Graph

end StepLoom
