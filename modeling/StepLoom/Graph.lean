import StepLoom.Setup
import StepLoom.Value.Display
import StepLoom.Pattern.Check
import StepLoom.Text.Distinct

/-!
# The dependency graph of a job

The nodes are the job's steps, the setups that they need, and the path checks that they are
conditioned on. A node knows which nodes it waits for (`before`), which nodes wait for it (`after`),
and the path checks of which at least one has to find a changed file for the node to run; a node
without such conditions always runs.

Nodes, edges and conditions keep the order in which they were added, so equal jobs give equal
graphs. Operations that fail leave the graph as they found it up to the failure.
-/

namespace StepLoom

inductive Kind where
  | step
  | setup
  | paths
deriving DecidableEq, Repr

structure Node where
  id : String
  kind : Kind
  content : Value
  /-- The path checks that the node is conditioned on; `none` if it always runs. -/
  pathDeps : Option (List String) := none
  before : List String := []
  after : List String := []

structure Graph where
  nodes : List Node := []

namespace Graph

def checkoutSetup : String := "checkout"

def setupId (name : String) : String := "setup-" ++ name
def stepId (index : Nat) : String := "step-" ++ toString index
def checkoutId : String := setupId checkoutSetup

/-- Keys of a step that only concern the tool. -/
def extensionKeys : List Scalar :=
  [.str "setup", .str "paths", .str "local", .str "local_env_flag", .str "local_cache_directory"]

def find? (g : Graph) (id : String) : Option Node := g.nodes.find? fun n => n.id == id

def has (g : Graph) (id : String) : Bool := (g.find? id).isSome

def update (id : String) (f : Node → Node) (g : Graph) : Graph :=
  ⟨g.nodes.map fun n => if n.id = id then f n else n⟩

/-- The graph after edits of mappings that also stand in its contents. -/
def applyAll (edits : List Edit) (g : Graph) : Graph :=
  ⟨g.nodes.map fun n => { n with content := n.content.applyAll edits }⟩

/-! ## Building -/

/-- A step in building a graph, which may fail and leaves a graph in either case. -/
abbrev Build := ExceptT Fault (StateM Graph)

/-- The node with an id that has to exist. -/
def node (id : String) : Build Node := do
  match (← get).find? id with
  | some n => return n
  | none => throw .missingKey

/-- `id` waits for `dep`; the edge is recorded at both ends. -/
def addEdge (id dep : String) : Build Unit := do
  discard (node id)
  modify (update id fun n => { n with before := addOnce dep n.before })
  discard (node dep)
  modify (update dep fun n => { n with after := addOnce id n.after })

def addEdges (id : String) : List String → Build Unit
  | [] => return
  | dep :: rest => do addEdge id dep; addEdges id rest

/-- A new node waits for the path checks it is conditioned on. A node that exists stays as it
is. -/
def addNode (id : String) (kind : Kind) (content : Value) (pathIds : List String) : Build Unit := do
  if (← get).has id then return
  let pathDeps := if pathIds.isEmpty then none else some (distinct pathIds)
  let new : Node := { id := id, kind := kind, content := content, pathDeps := pathDeps }
  modify fun g => ⟨g.nodes ++ [new]⟩
  addEdges id pathIds

/-- The check for some patterns, shared by all who name the same patterns. -/
def useCheck (patterns : List String) : Build String := do
  let sorted := Check.sortTexts patterns
  let id := Check.nodeId sorted
  addNode id .paths (.list (sorted.map .str)) []
  return id

/-! ## Conditions -/

/-- Conditions a node on further path checks, which it then waits for. -/
def conditionOn (id : String) : List String → Build Unit
  | [] => return
  | pathId :: rest => do
    modify (update id fun n => { n with pathDeps := n.pathDeps.map (addOnce pathId) })
    addEdge id pathId
    conditionOn id rest

/-- What a new reference does to one node, and the nodes to go on with. Without path checks the
node loses its conditions. With path checks a conditional node gains them, and nothing passes
through the checkout. -/
def revisit (pathIds : List String) (id : String) : Build (List String) := do
  let n ← node id
  if pathIds.isEmpty then
    modify (update id fun n => { n with pathDeps := none })
    return n.before
  else if id = checkoutId then return []
  else
    if n.pathDeps.isSome then conditionOn id pathIds
    return (← node id).before

/-- Goes through the nodes of a stack and what they wait for, each once. -/
def pushDownFrom (pathIds : List String) : (fuel : Nat) → (stack seen : List String) → Build Unit
  | 0, _, _ => return
  | _, [], _ => return
  | fuel + 1, id :: stack, seen => do
    if id ∈ seen then pushDownFrom pathIds fuel stack seen
    else
      let next ← revisit pathIds id
      pushDownFrom pathIds fuel (next ++ stack) (id :: seen)

/-- A bound on the nodes that a walk can come across, repetitions included. -/
def walkBound (g : Graph) (pathIds : List String) : Nat :=
  (g.nodes.map fun n => n.before.length + pathIds.length).foldr (· + ·) 1

/-- Pushes the path conditions of a new reference down through everything the node waits for. -/
def pushDown (id : String) (pathIds : List String) : Build Unit := do
  pushDownFrom pathIds (walkBound (← get) pathIds) [id] []

/-! ## Setups -/

/-- Makes `id` wait for the nodes that `add` yields for some names. -/
def awaitEach (id : String) (add : Value → Build String) : List Value → Build Unit
  | [] => return
  | name :: rest => do
    addEdge id (← add name)
    awaitEach id add rest

/-- The names in a `setup` field. -/
def names (setup : Option Value) : Build (List Value) := liftM (Value.oneOrMany setup)

/-- The node of a setup. A known one takes over the conditions of the new reference; a new one is
added together with the setups that it needs. `depth` bounds how deep references are nested. -/
def useSetupWithin (table : Value) : (depth : Nat) → Value → List String → Build String
  | 0, _, _ => throw .tooDeep
  | depth + 1, name, pathIds => do
    let text ← liftM name.text
    let id := setupId text
    let pathIds := if name.equal (.str checkoutSetup) then [] else pathIds
    if (← get).has id then
      pushDown id pathIds
      return id
    match ← liftM (Setup.find? table name) with
    | none => throw (.unknownSetup text)
    | some definition =>
      addNode id .setup definition pathIds
      match definition.fields? with
      | some fields =>
        awaitEach id (fun n => useSetupWithin table depth n pathIds)
          (← names (Fields.get? "setup" fields))
      | none => pure ()
      return id

/-- Nested references never repeat, so two more than the table's references is deep enough. -/
def useSetup (table name : Value) (pathIds : List String) : Build String :=
  useSetupWithin table (Setup.referenceCount table + 2) name pathIds

def awaitSetups (table : Value) (id : String) (setup : Option Value) (pathIds : List String) :
    Build Unit := do
  awaitEach id (fun n => useSetup table n pathIds) (← names setup)

/-! ## Steps -/

/-- Gives the content of a node that has just been added; a node that was there before keeps its
own. -/
def refresh (isNew : Bool) (id : String) (content : Value) : Build Unit :=
  if isNew then modify (update id fun n => { n with content }) else return

/-- The edits made to a step's mapping also reach the contents of the graph. -/
def replay (edits : List Edit) : Build Unit := modify (applyAll edits)

/-- The node of a step, with its path check, its setups and the step before it. Yields the step
without the extension keys, and the edits that this means for its other places. -/
def addStep (table : Value) (index : Nat) (step : Value) : Build (Value × List Edit) := do
  let id := stepId index
  let (paths, fields) ← liftM (step.take "paths")
  let patterns ← liftM (Value.oneOrMany paths)
  let pathIds ← if patterns.isEmpty then pure [] else do
    pure [← useCheck (← liftM (Value.strings patterns))]
  let isNew := !(← get).has id
  addNode id .step (step.withFields fields).1 pathIds
  let setup := Fields.get? "setup" fields
  let (withoutSetup, edits) := step.withFields (Fields.erase "setup" fields)
  refresh isNew id withoutSetup
  replay edits
  awaitSetups (table.applyAll edits) id setup pathIds
  let (plain, edits) := step.withFields (extensionKeys.foldl (fun fs k => Fields.erase k fs) fields)
  refresh isNew id plain
  replay edits
  if 0 < index then addEdge id (stepId (index - 1))
  return (plain, edits)

/-- Path checks compare the working tree, so each of them waits for the checkout. -/
def awaitCheckoutFrom : List Node → Build Unit
  | [] => return
  | n :: rest => do
    if n.kind = .paths then
      if !(← get).has checkoutId then throw .missingCheckout
      addEdge n.id checkoutId
    awaitCheckoutFrom rest

def awaitCheckout : Build Unit := do awaitCheckoutFrom (← get).nodes

end Graph

end StepLoom
