import StepLoom.Value.Slots
import StepLoom.Yaml.Literal
import StepLoom.Yaml.Merge

/-!
# Reading YAML

`Yaml.read` gives the value of a text with one document. A field written twice keeps its first place
and takes the last value. The field `<<` merges the fields of other mappings in front of the
mapping's own. A mapping that an alias puts at several places is marked, and a collection that an
alias puts into itself refers to itself.

A document is read level by level. A scalar is read when it is met; a collection that is met is put
at the end of a queue and looked into when its turn comes. So of several faults the least deep one
is reported, and of those at one depth the first.
-/

namespace StepLoom

namespace Yaml

/-- The characters that a text may hold. -/
def isReadable (c : Char) : Bool :=
  let n := c.toNat
  n == 9 || n == 10 || n == 13 || decide (0x20 ≤ n ∧ n ≤ 0x7E) || n == 0x85
    || decide (0xA0 ≤ n ∧ n ≤ 0xD7FF) || decide (0xE000 ≤ n ∧ n ≤ 0xFFFD) || decide (0x10000 ≤ n)

/-- What a node has been read as; the members of collections are numbers of nodes. -/
inductive Part where
  /-- A node that has not been met. -/
  | unmet
  /-- A collection that has been met and not yet been looked into. -/
  | met
  | scalar (s : Scalar)
  | list (items : List Nat)
  | pairs (members : List (Nat × Nat))
  | set (members : List Scalar)
  | map (fields : List (Scalar × Nat))

/-- A document while it is read. -/
structure Reader where
  nodes : Nodes
  /-- Where the places of the document begin. -/
  first : Nat
  /-- How many merge keys there were at first. -/
  merges : Nat
  parts : Array Part
  /-- The collections that wait for their turn. -/
  queue : List Nat := []

namespace Reader

abbrev Step := StateT Reader (Except Fault)

def isScalarTag : Tag → Bool
  | .null | .bool | .int | .float | .timestamp | .binary | .str => true
  | _ => false

def isCollectionTag : Tag → Bool
  | .seq | .map | .set | .omap | .pairs => true
  | _ => false

/-! ## Scalars -/

/-- The text of a node that is read as a scalar. A mapping gives the text under its first key
`=`. -/
def textOf (nodes : Nodes) : (fuel : Nat) → Nat → Except Fault String
  | 0, _ => .error .endless
  | fuel + 1, n =>
    match nodes.node n with
    | .scalar _ text => .ok text
    | .seq .. => .error .yaml
    | .map _ pairs =>
      match pairs.find? fun (key, _) => nodes.tagOf key == .default with
      | some (_, v) => textOf nodes fuel v
      | none => .error .yaml

/-- The scalar that a node stands for. The text of a moment has to be the node's own. -/
def scalarOf (r : Reader) (n : Nat) (tag : Tag) : Except Fault Scalar := do
  let text ← textOf r.nodes (r.nodes.size + 1) n
  match tag, r.nodes.node n with
  | .timestamp, .map .. => throw .illTyped
  | _, _ => Literal.read (r.first + n) tag text

/-! ## Meeting nodes -/

def part (r : Reader) (n : Nat) : Part := r.parts.getD n .unmet

def setPart (n : Nat) (p : Part) : Step Unit :=
  modify fun r => { r with parts := r.parts.setIfInBounds n p }

/-- Reads a scalar, and lets a collection wait. -/
def meet (n : Nat) : Step Unit := do
  let r ← get
  match r.part n with
  | .unmet =>
    let tag := r.nodes.tagOf n
    if isScalarTag tag then
      setPart n (.scalar (← liftM (r.scalarOf n tag)))
    else if isCollectionTag tag then
      setPart n .met
      modify fun r => { r with queue := r.queue ++ [n] }
    else throw .yaml
  | _ => return

def meetAll : List Nat → Step Unit
  | [] => return
  | n :: rest => do
    meet n
    meetAll rest

/-- A key, which has to be a scalar. -/
def key (n : Nat) : Step Scalar := do
  meet n
  match (← get).part n with
  | .scalar s => return s
  | _ => throw .yaml

/-! ## Looking into collections -/

/-- The members of a list of mappings with one field each. -/
def pairsOf : List Nat → Step (List (Nat × Nat))
  | [] => return []
  | n :: rest => do
    match (← get).nodes.pairs? n with
    | some [(k, v)] =>
      meet k
      meet v
      return (k, v) :: (← pairsOf rest)
    | _ => throw .yaml

def fieldsOf : List (Nat × Nat) → Step (List (Scalar × Nat))
  | [] => return []
  | (k, v) :: rest => do
    let s ← key k
    meet v
    return (s, v) :: (← fieldsOf rest)

/-- The fields of a mapping, after merging. -/
def mergedFields (n : Nat) : Step (List (Scalar × Nat)) := do
  let (pairs, nodes) ← liftM ((Nodes.merge (← get).merges n).run (← get).nodes)
  modify fun r => { r with nodes }
  fieldsOf pairs

/-- The members of a set; of equal ones the first. -/
def membersOf (fields : List (Scalar × Nat)) : List Scalar :=
  Slots.ofFields ((Fields.ofPairs (fields.map fun (k, _) => (k, .null))).map (·.1))

/-- Looks into a collection, which its tag has to fit. -/
def lookInto (n : Nat) : Step Unit := do
  match (← get).nodes.node n with
  | .seq .seq items => do
    meetAll items
    setPart n (.list items)
  | .seq .omap items | .seq .pairs items => setPart n (.pairs (← pairsOf items))
  | .map .map _ => setPart n (.map (← mergedFields n))
  | .map .set _ => setPart n (.set (membersOf (← mergedFields n)))
  | _ => throw .yaml

/-- Looks into the collections that wait. Each node waits once at most. -/
def lookIntoAll : (fuel : Nat) → Step Unit
  | 0 => return
  | fuel + 1 => do
    match (← get).queue with
    | [] => return
    | n :: rest => do
      modify fun r => { r with queue := rest }
      lookInto n
      lookIntoAll fuel

/-! ## Values -/

/-- A list with its mark, which it only needs if it is a part of itself. -/
def listWith (mark : Nat) (items : List Value) : Value :=
  if (Value.marksOfItems items).contains mark then .ring mark items else .list items

/-- The value of a node. `around` holds the nodes that it is a part of. -/
def valueOf (r : Reader) : (fuel : Nat) → (around : List Nat) → Nat → Value
  | 0, _, _ => .null
  | fuel + 1, around, n =>
    if around.contains n then .again (r.first + n)
    else
      let inner := valueOf r fuel (n :: around)
      match r.part n with
      | .scalar s => .scalar s
      | .list items => listWith (r.first + n) (items.map inner)
      | .pairs members =>
        listWith (r.first + n) (members.map fun (k, v) => .pair (inner k) (inner v))
      | .set members => .set members
      | .map fields =>
        .map (some (r.first + n)) (Fields.ofPairs (fields.map fun (k, v) => (k, inner v)))
      | .unmet | .met => .null

/-- The value of the node at the root. -/
def run (root : Nat) : Step Value := do
  meet root
  let size := (← get).nodes.size
  lookIntoAll size
  return ((← get).valueOf (size + 1) [] root).pruneMarks

end Reader

/-- Nothing of the document has been met. -/
def Reader.start (doc : Document) (first : Nat) : Reader :=
  { nodes := doc.nodes
    first := first
    merges := Nodes.mergeCount doc.nodes
    parts := Array.replicate doc.nodes.size .unmet }

/-- The value of the only document in a text, and the first place that is free behind it. Places are
taken from `first` on. -/
def readFrom (dialect : Dialect) (first : Nat) (text : String) : Except Fault (Value × Nat) := do
  let cs := text.toList
  if !cs.all isReadable then throw .yaml
  let doc ← Document.ofTokens dialect (Tokens.ofText cs)
  match doc.root with
  | some root =>
    let (v, _) ← (Reader.run root).run (.start doc first)
    return (v, first + doc.nodes.size)
  | none => return (.null, first)

/-- The value of the only document in a text. -/
def read (dialect : Dialect) (text : String) : Except Fault Value := do
  return (← readFrom dialect 0 text).1

end Yaml

end StepLoom
