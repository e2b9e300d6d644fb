import StepLoom.Value.Access

/-!
# Setup definitions

A setup is a named group of steps, given as a list of steps or as a mapping with `steps` and with a
`setup` field that names the groups it needs itself. A workflow's table of setups maps names to
definitions.
-/

namespace StepLoom

namespace Setup

/-- The steps of a definition, in either form. -/
def steps (definition : Value) : Except Fault (List Value) :=
  match definition.unroll with
  | .scalar .null => .ok []
  | .list items => .ok items
  | v => do Value.membersOrNone (← v.field? "steps")

/-- The definition under a name, if the table has one. -/
def find? (table name : Value) : Except Fault (Option Value) := do
  if ← table.contains name then return some (← table.lookUp name)
  return none

/-- How many names a definition lists. -/
def listed (definition : Value) : Nat :=
  match definition.fields? with
  | some fields =>
    match Value.oneOrMany (Fields.get? "setup" fields) with
    | .ok names => names.length
    | .error _ => 0
  | none => 0

/-- How many names the definitions of a table list, all together. -/
def referenceCount (table : Value) : Nat :=
  match table.unroll with
  | .map _ fields => (fields.map fun (_, v) => listed v).foldr (· + ·) 0
  | .list items => (items.map listed).foldr (· + ·) 0
  | _ => 0

end Setup

end StepLoom
