import StepLoom.Yaml.Node

/-!
# Merge keys

The key `<<` of a mapping takes over the fields of other mappings, and `Nodes.merge` puts them in
front of the mapping's own. What is taken over is merged itself first. A mapping may even merge
itself: its `<<` is gone by the time it is taken over, so that each merge key is used once.

The key `=` is a usual key of a mapping, although it stands for no data of its own.
-/

namespace StepLoom

namespace Yaml

abbrev Nodes := Array Node

namespace Nodes

abbrev Step := StateT Nodes (Except Fault)

def node (nodes : Nodes) (n : Nat) : Node := nodes.getD n .nothing

def tagOf (nodes : Nodes) (n : Nat) : Tag := (nodes.node n).tag

/-- The fields of a mapping, if the node is one. -/
def pairs? (nodes : Nodes) (n : Nat) : Option (List (Nat × Nat)) :=
  match nodes.node n with
  | .map _ pairs => some pairs
  | _ => none

def setTag (n : Nat) (tag : Tag) : Step Unit :=
  modify fun nodes => nodes.setIfInBounds n ((nodes.node n).withTag tag)

def setPairs (n : Nat) (pairs : List (Nat × Nat)) : Step Unit :=
  modify fun nodes => nodes.setIfInBounds n (.map (nodes.tagOf n) pairs)

/-- The fields of a node that has to be a mapping. -/
def pairsOf (n : Nat) : Step (List (Nat × Nat)) := do
  match (← get).pairs? n with
  | some pairs => return pairs
  | none => throw .yaml

/-- Makes the keys `=` usual ones. -/
def settleKeys : List (Nat × Nat) → Step Unit
  | [] => return
  | (key, _) :: rest => do
    if (← get).tagOf key = .default then setTag key .str
    settleKeys rest

/-- How many merge keys there are. -/
def mergeCount (nodes : Nodes) : Nat :=
  (nodes.toList.map fun
    | .map _ pairs => pairs.countP fun (key, _) => nodes.tagOf key == .merge
    | _ => 0).foldr (· + ·) 0

/-- Takes the fields over that the merge keys of a mapping name, from the first key on. Each key is
taken out before its value is looked at. -/
def mergeWithin : (fuel : Nat) → Nat → Step Unit
  | 0, _ => throw .tooDeep
  | fuel + 1, n => do
    let pairs ← pairsOf n
    settleKeys pairs
    let nodes ← get
    let isMerge := fun ((key, _) : Nat × Nat) => nodes.tagOf key == .merge
    match pairs.find? isMerge with
    | none => return
    | some (_, source) =>
      setPairs n (pairs.eraseP isMerge)
      let taken ← match nodes.node source with
        | .map .. => do
          mergeWithin fuel source
          pairsOf source
        | .seq _ items => do
          let parts ← items.mapM fun item => do
            discard (pairsOf item)
            mergeWithin fuel item
            pairsOf item
          pure parts.reverse.flatten
        | .scalar .. => throw .yaml
      mergeWithin fuel n
      setPairs n (taken ++ (← pairsOf n))

/-- The fields of a mapping with those that it merges. `count` is how many merge keys there are at
most. -/
def merge (count n : Nat) : Step (List (Nat × Nat)) := do
  mergeWithin (count + 1) n
  pairsOf n

end Nodes

end Yaml

end StepLoom
