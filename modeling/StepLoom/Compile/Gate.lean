import StepLoom.Value.Access
import StepLoom.Value.Display

/-!
# Gates

A gate is the condition in the `if` of a compiled step. Conditions are joined by writing both in
parentheses, so either may be any expression.
-/

namespace StepLoom

namespace Gate

/-- Both conditions hold. -/
def both (one two : String) : String := "(" ++ one ++ ") && (" ++ two ++ ")"

/-- A condition in front of the `if` that a step already has, unless that is blank. -/
def inFrontOf (condition : String) (existing : Option Value) : Except Fault String :=
  match Value.given? existing with
  | some v => do return both condition (← v.text)
  | none => .ok condition

/-- The step under a condition: a copy with a new `if`, or the step itself if there is no
condition. -/
def guardWith (condition : Option String) (step : Value) : Except Fault Value :=
  match condition.filter fun c => !c.isEmpty with
  | none => .ok step
  | some c => do
    let existing ← step.field? "if"
    let gate ← inFrontOf c existing
    return .record (Fields.put "if" (.str gate) (← step.spread))

/-- The test of one path check's output. -/
def changed (stepId : String) : String := "steps." ++ stepId ++ ".outputs.changed == 'true'"

/-- The step ids of path checks, in order; each has to be known. -/
def lookUpAll (outputIds : List (String × String)) : List String → Except Fault (List String)
  | [] => .ok []
  | id :: rest =>
    match outputIds.find? fun (k, _) => k == id with
    | some (_, stepId) => do return stepId :: (← lookUpAll outputIds rest)
    | none => .error .missingKey

/-- The condition that at least one of some path checks found a change; none for a step that
always runs. -/
def anyChanged (pathDeps : Option (List String)) (outputIds : List (String × String)) :
    Except Fault (Option String) :=
  match pathDeps with
  | none => .ok none
  | some ids => do
    return some (" || ".intercalate ((← lookUpAll outputIds ids).map changed))

end Gate

end StepLoom
