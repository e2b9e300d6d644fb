import StepLoom.Graph

/-!
# Putting the nodes in order

`Graph.order` places each node after everything it waits for. A node is ready when it waits for
nothing more; ready nodes are placed in the order in which they became ready, the nodes that never
waited first, as they stand in the graph. When nothing is ready any more and edges are left, these
edges hold a cycle, and all of them are reported.
-/

namespace StepLoom

namespace Graph

/-- The edges that are left, from the node that is waited for to the one that waits. -/
def edges (g : Graph) : List String :=
  g.nodes.flatMap fun n => n.after.map fun dependent => n.id ++ ":" ++ dependent

/-- The state of the ordering: the graph of the edges not yet used, the nodes that are ready, and
the nodes placed so far. -/
structure Sweep where
  rest : Graph
  ready : List String
  placed : List String

/-- `dependent` no longer waits for `id`. It becomes ready if that was the last thing it waited
for. -/
def Sweep.release (id dependent : String) (s : Sweep) : Except Fault Sweep :=
  match s.rest.find? dependent with
  | none => .error .missingKey
  | some d =>
    if id ∈ d.before then
      let rest := s.rest.update id fun n => { n with after := n.after.erase dependent }
      let rest := rest.update dependent fun n => { n with before := n.before.erase id }
      let isReady := (d.before.erase id).isEmpty
      .ok { s with rest, ready := if isReady then s.ready ++ [dependent] else s.ready }
    else .error .missingKey

def Sweep.releaseAll (id : String) : List String → Sweep → Except Fault Sweep
  | [], s => .ok s
  | dependent :: more, s => do releaseAll id more (← s.release id dependent)

/-- Places ready nodes, as many as `fuel` allows. -/
def Sweep.run : (fuel : Nat) → Sweep → Except Fault Sweep
  | 0, s => .ok s
  | fuel + 1, s =>
    match s.ready with
    | [] => .ok s
    | id :: ready => do
      let dependents := match s.rest.find? id with
        | some n => n.after
        | none => []
      run fuel (← releaseAll id dependents { s with ready, placed := s.placed ++ [id] })

/-- Before anything is placed. -/
def Sweep.start (g : Graph) : Sweep :=
  { rest := g
    ready := (g.nodes.filter fun n => n.before.isEmpty).map (·.id)
    placed := [] }

/-- The ids of all nodes, each after those it waits for. A node is placed once at most, so the
number of nodes is fuel enough. -/
def order (g : Graph) : Except Fault (List String) := do
  let s ← (Sweep.start g).run g.nodes.length
  if s.rest.edges.isEmpty then return s.placed else throw (.cycle s.rest.edges)

end Graph

end StepLoom
