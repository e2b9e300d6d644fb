import StepLoom.Compile.Gate
import StepLoom.Compile.Registry
import StepLoom.Graph

/-!
# Blocks of steps

Each node of a job's graph becomes a block of steps: a path check the step that compares files, a
setup the steps of its definition, a job step itself. Every step of a block is gated by the path
checks that the node is conditioned on, and `Block.join` puts the blocks together in a given order.
-/

namespace StepLoom

namespace Block

open Registry (Claiming)

/-- The name of the only step of a setup. -/
def singleLabel (setup step : String) : String := "▶️ Setup " ++ setup ++ ": " ++ step

def startMarker (setup : String) : Value :=
  .record [("name", .str ("🔽 Start setup [" ++ setup ++ "]")),
    ("run", .str "echo \"Setting something up\"")]

def finishMarker (setup : String) : Value :=
  .record [("name", .str ("🔼 Finished setup [" ++ setup ++ "]")),
    ("run", .str "echo \"Finished setting it up\"")]

/-- The text of an optional name, empty for a blank one. -/
def nameText (name : Option Value) : Except Fault String :=
  match Value.given? name with
  | some v => v.text
  | none => .ok ""

/-- The steps of a setup, as copies: nothing for none, one step under a name that tells the setup,
more between two markers. All are gated. -/
def ofSetup (name : String) (definition : Value) (condition : Option String) :
    Except Fault (List Value) := do
  match ← Setup.steps definition with
  | [] => return []
  | [step] =>
    let label := singleLabel name (← nameText (← step.field? "name"))
    let fields ← step.spread
    return [← Gate.guardWith condition (.record (Fields.put "name" (.str label) fields))]
  | steps =>
    let copies ← steps.mapM fun s => do return Value.record (← s.asFields)
    (startMarker name :: copies ++ [finishMarker name]).mapM (Gate.guardWith condition)

/-- The steps of one node, and the step ids of path checks known after it. -/
def ofNode (n : Node) (outputIds : List (String × String)) :
    Claiming (List Value × List (String × String)) := do
  let condition ← liftM (Gate.anyChanged n.pathDeps outputIds)
  match n.kind with
  | .paths =>
    let patterns ← liftM (n.content.members >>= Value.strings)
    let id ← ExceptT.mk fun r => match r.claim patterns with
      | .ok (id, r) => (.ok id, r)
      | .error e => (.error e, r)
    let check ← liftM (Check.step id patterns)
    return ([← liftM (Gate.guardWith condition (.record check))], outputIds ++ [(n.id, id)])
  | .setup =>
    let name := String.ofList (n.id.toList.drop (Graph.setupId "").length)
    return (← liftM (ofSetup name n.content condition), outputIds)
  | .step => return ([← liftM (Gate.guardWith condition n.content)], outputIds)

def joinFrom (g : Graph) (outputIds : List (String × String)) :
    List String → Claiming (List Value)
  | [] => return []
  | id :: rest =>
    match g.find? id with
    | none => throw .missingKey
    | some n => do
      let (steps, outputIds) ← ofNode n outputIds
      return steps ++ (← joinFrom g outputIds rest)

/-- The steps of all nodes, in the given order. -/
def join (g : Graph) (order : List String) : Claiming (List Value) := joinFrom g [] order

end Block

end StepLoom
