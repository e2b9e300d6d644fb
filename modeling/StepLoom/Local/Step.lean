import StepLoom.Local.Action

/-!
# Running a step

A step opts out of local runs with `local: false`, or by naming a variable in `local_env_flag` that
is not set.
A step with `paths` only runs when a changed file matches. Steps that neither run a command nor use
an action are passed over.
-/

namespace StepLoom

namespace Step

/-- The first given field of a step, or the last one named even if it is blank. -/
def firstGiven (fields : Fields) : List Scalar → Value
  | [] => .null
  | [key] => (Fields.get? key fields).getD .null
  | key :: rest =>
    match Value.given? (Fields.get? key fields) with
    | some v => v
    | none => firstGiven fields rest

/-- What a step is called in messages. -/
def label (fields : Fields) : Except Fault String :=
  (firstGiven fields ["name", "uses", "run"]).text

/-- What becomes of a step. -/
inductive Decision where
  | run
  | skip
  /-- Skipped with a word to the user, because a variable is not set. -/
  | skipWithout (flag : String)
deriving DecidableEq, Repr

def optsOut (fields : Fields) : Bool :=
  match Fields.get? "local" fields with
  | some (.scalar (.bool false)) => true
  | _ => false

/-- Whether the patterns of a step select a changed file; a step without patterns is not held
back. -/
def isAffected (changed : List String) (fields : Fields) : Except Fault Bool :=
  match Value.given? (Fields.get? "paths" fields) with
  | some paths => do Pattern.selectsAny (← Value.oneOrMany (some paths)) changed
  | none => .ok true

/-- The variable that a step needs and that is unset or empty. -/
def missingFlag? (env : Environment) (fields : Fields) : Except Fault (Option String) :=
  match Value.given? (Fields.get? "local_env_flag" fields) with
  | some flag => do
    let name ← flag.string
    if (env.get? name).all (·.isEmpty) then return some name else return none
  | none => .ok none

def hasWork (fields : Fields) : Bool :=
  (Value.given? (Fields.get? "run" fields)).isSome
    || (Value.given? (Fields.get? "uses" fields)).isSome

def decision (env : Environment) (changed : List String) (fields : Fields) :
    Except Fault Decision := do
  if optsOut fields then return .skip
  if !(← isAffected changed fields) then return .skip
  match ← missingFlag? env fields with
  | some flag => return .skipWithout flag
  | none => return if hasWork fields then .run else .skip

/-- The directory that the command of a step runs in. -/
def directory (root : Path) (fields : Fields) : Act Path := do
  match Value.given? (Fields.get? "working-directory" fields) with
  | some v => Act.resolve (root / (← liftM v.string))
  | none => return root

/-- Does the work of a step. -/
def perform (root : Path) (step : Value) (fields : Fields) : Act Findings := do
  Act.print ("[step] " ++ (← liftM (label fields)))
  match Value.given? (Fields.get? "run" fields) with
  | none => Action.run step root
  | some command => do
    let cwd ← directory root fields
    Shell.run (← liftM (Command.ofValue command)) cwd []

/-- Runs a step, unless it is skipped. -/
def run (root : Path) (changed : List String) (step : Value) : Act (Option Findings) := do
  let fields ← liftM step.fieldsOf
  match ← liftM (decision (← get).env changed fields) with
  | .skip => return none
  | .skipWithout flag => do
    Act.print ("[step] Skipping step \"" ++ (← liftM (label fields)) ++ "\" because env flag "
      ++ flag ++ " is missing.")
    return none
  | .run => return some (← perform root step fields)

end Step

end StepLoom
