import StepLoom.Text.Base64
import StepLoom.Yaml.Plain

/-!
# What a text under a tag stands for

A scalar node is a text with a tag, given or found. `Literal.read` gives the scalar that the text
stands for under the tag. A tag may be given to any text, so more texts are read here than look like
scalars of their kind: a number may stand between blanks, have a second sign behind the first one,
repeat the mark of its base, or be written with the digits of any script.
-/

namespace StepLoom

namespace Yaml

namespace Literal

def dropBars (cs : List Char) : List Char := cs.filter (· ≠ '_')

/-! ## Booleans -/

/-- The boolean that a word stands for, in any case. -/
def readBool (text : String) : Except Fault Scalar :=
  let word := text.toLower
  if ["true", "yes", "on"].contains word then .ok (.bool true)
  else if ["false", "no", "off"].contains word then .ok (.bool false)
  else .error .missingKey

/-! ## Integers -/

/-- Only so much of a text is repeated in a message. -/
def quoteLimit : Nat := 200

/-- Digits in a base, or the fault that there are none. -/
def readDigits (base : Nat) (cs : List Char) : Except Fault Int :=
  match readInt base cs with
  | .ok n => .ok n
  | .error (.tooManyDigits count) => .error (.tooManyDigits (some count))
  | .error .malformed =>
    let quoted := (Text.quote (String.ofList cs)).toList.take quoteLimit
    .error (.invalidData ("invalid literal for int() with base " ++ toString base ++ ": "
      ++ String.ofList quoted))

def readEach (base : Nat) : List (List Char) → Except Fault (List Int)
  | [] => .ok []
  | cs :: rest => do return (← readDigits base cs) :: (← readEach base rest)

/-- Places of base sixty, the last one counting once. -/
def sexagesimal (places : List Int) : Int := places.foldl (fun n place => n * 60 + place) 0

/-- An integer behind its sign. A zero in front means base eight, unless a letter tells the base. -/
def readUnsigned : List Char → Except Fault Int
  | ['0'] => .ok 0
  | '0' :: 'b' :: rest => readDigits 2 rest
  | '0' :: 'x' :: rest => readDigits 16 rest
  | '0' :: rest => readDigits 8 ('0' :: rest)
  | cs =>
    if cs.contains ':' then sexagesimal <$> readEach 10 (Text.splitOnChar ':' cs)
    else readDigits 10 cs

def readInteger (text : String) : Except Fault Scalar := do
  let (negative, body) := splitSign (dropBars text.toList)
  if body.isEmpty then throw .outOfRange
  let n ← readUnsigned body
  return .int (if negative then -n else n)

/-! ## Floats -/

def readDecimal (cs : List Char) : Except Fault Binary64 :=
  match Binary64.read? cs with
  | some x => .ok x
  | none => .error (.invalidData ("could not convert string to float: "
      ++ Text.quote (String.ofList cs)))

def readDecimals : List (List Char) → Except Fault (List Binary64)
  | [] => .ok []
  | cs :: rest => do return (← readDecimal cs) :: (← readDecimals rest)

/-- Places of base sixty from the last one on, `unit` being what the next one counts. -/
def addPlaces (sum : Binary64) (unit : Int) : List Binary64 → Except Fault Binary64
  | [] => .ok sum
  | x :: rest =>
    let factor := Binary64.ofInt unit
    if factor.isInfinite then .error .tooLarge
    else addPlaces (sum.add (x.mul factor)) (unit * 60) rest

/-- What is no number is always one and the same when it is written `.nan`. Otherwise it differs
from all others and is named by its place in the document. -/
def readFloat (place : Nat) (text : String) : Except Fault Scalar := do
  let cs := (Text.lower (String.ofList (dropBars text.toList))).toList
  if cs.isEmpty then throw .outOfRange
  let (negative, body) := splitSign cs
  if body = ".nan".toList then return .float (.nanNamed 1)
  let x ←
    if body = ".inf".toList then pure (Binary64.infinity false)
    else if body.contains ':' then do
      let places ← readDecimals (Text.splitOnChar ':' body)
      addPlaces (Binary64.ofInt 0) 1 places.reverse
    else readDecimal body
  return .float
    (if x.isNaN then .nanNamed (place + 2) else if negative then x.neg else x)

/-! ## The others -/

def readMoment (text : String) : Except Fault Scalar :=
  match Moment.read? text.toList with
  | none => .error .noMember
  | some m =>
    match m.flaw? with
    | some flaw => .error (.invalidData flaw)
    | none => .ok m.toScalar

def readBytes (text : String) : Except Fault Scalar :=
  let cs := text.toList
  if cs.any fun c => decide (128 ≤ c.toNat) then .error .yaml
  else match Text.Base64.decode? cs with
    | some bs => .ok (.bytes bs)
    | none => .error .yaml

/-- The scalar that the text of the node at a place stands for under a tag. -/
def read (place : Nat) (tag : Tag) (text : String) : Except Fault Scalar :=
  match tag with
  | .null => .ok .null
  | .bool => readBool text
  | .int => readInteger text
  | .float => readFloat place text
  | .timestamp => readMoment text
  | .binary => readBytes text
  | .str => .ok (.str text)
  | _ => .error .yaml

end Literal

end Yaml

end StepLoom
