import StepLoom.Text.Blank
import StepLoom.Text.Ends

/-!
# Command line arguments

Options begin with a dash. A long option gets its value from the next argument or behind an equals
sign, and flags have none; letters behind one dash are flags, each of them one. Other arguments are
operands, and so is everything after `--`.

`Arguments.read` tells options and operands apart. Operands may stand between options if the list is
`mixed`; otherwise the first one ends the options.
-/

namespace StepLoom

/-- An option that a command knows. -/
structure Knob where
  name : String
  letter : Option Char := none
  takesValue : Bool := true
deriving DecidableEq, Repr

/-- Options with their values, as given, and operands. A flag has the empty value. -/
structure Arguments where
  options : List (String × String) := []
  operands : List String := []
deriving DecidableEq, Repr

namespace Arguments

/-- The value that an option was given last. -/
def last? (args : Arguments) (name : String) : Option String :=
  (args.options.reverse.find? fun (k, _) => k == name).map (·.2)

/-- The value that an option was given last, unless that is empty. -/
def given? (args : Arguments) (name : String) : Option String :=
  (args.last? name).filter fun v => !v.isEmpty

def hasFlag (args : Arguments) (name : String) : Bool := (args.last? name).isSome

/-- What one argument with a dash says. -/
inductive Reading where
  /-- Options that are complete. -/
  | complete (options : List (String × String))
  /-- An option whose value is the next argument. -/
  | awaits (name : String)

/-- The flag for each of some letters. -/
def letters (knobs : List Knob) : List Char → Option (List (String × String))
  | [] => some []
  | c :: rest => do
    let knob ← knobs.find? fun k => k.letter == some c && !k.takesValue
    return (knob.name, "") :: (← letters knobs rest)

/-- Reads an argument that begins with a dash. -/
def readOption (knobs : List Knob) (arg : String) : Option Reading :=
  let (name, value) := Text.cutAt arg '='
  match knobs.find? fun k => k.name == name with
  | some knob =>
    match knob.takesValue, arg.toList.contains '=' with
    | true, true => some (.complete [(name, value)])
    | true, false => some (.awaits name)
    | false, true => none
    | false, false => some (.complete [(name, "")])
  | none =>
    if Text.startsWith "--" arg then none
    else (letters knobs (arg.toList.drop 1)).map .complete

def isOption (arg : String) : Bool := Text.startsWith "-" arg && arg.length != 1

def addOptions (options : List (String × String)) (args : Arguments) : Arguments :=
  { args with options := options ++ args.options }

def addOperand (operand : String) (args : Arguments) : Arguments :=
  { args with operands := operand :: args.operands }

/-- Reads arguments; none if an option is unknown, lacks its value, or has one that it must not
have. -/
def read (knobs : List Knob) (mixed : Bool) : List String → Option Arguments
  | [] => some {}
  | arg :: rest =>
    if arg = "--" then some { operands := rest }
    else if isOption arg then
      match readOption knobs arg with
      | none => none
      | some (.complete options) => (read knobs mixed rest).map (addOptions options)
      | some (.awaits name) =>
        match rest with
        | [] => none
        | value :: rest => (read knobs mixed rest).map (addOptions [(name, value)])
    else if mixed then (read knobs mixed rest).map (addOperand arg)
    else some { operands := arg :: rest }

end Arguments

end StepLoom
