import StepLoom.Compile.Gate

/-!
# Bail conditions

Once the `bail_if` of a step holds, all steps after it are skipped. `Bail.resolveAll` turns each
`bail_if` into a negated gate on every later step. In the condition, `outputs.` means the outputs of
the step itself, unless a dot stands before it; it is replaced by a reference through the step's id,
and a step without an id gets one.

The replacement is a template: a backslash in the id starts an escape, as in the replacement text of
a regular expression.
-/

namespace StepLoom

namespace Bail

/-! ## Replacement templates -/

/-- The letters that a backslash turns into another character. -/
def letterEscapes : List (Char × Nat) :=
  [('a', 7), ('b', 8), ('f', 12), ('n', 10), ('r', 13), ('t', 9), ('v', 11), ('\\', 92)]

def isOctal (c : Char) : Bool := decide ('0' ≤ c ∧ c ≤ '7')

def octalValue (cs : List Char) : Nat := cs.foldl (fun n c => n * 8 + (c.toNat - 48)) 0

/-- What follows a backslash: the text it stands for and the number of characters it takes. Of
groups there is only the whole match, under the number zero. -/
def readEscape (whole : List Char) : List Char → Except Fault (List Char × Nat)
  | 'g' :: '<' :: rest =>
    let name := rest.takeWhile (· ≠ '>')
    if name.isEmpty || name.length = rest.length || name.any (· ≠ '0') then .error .badEscape
    else .ok (whole, name.length + 3)
  | '0' :: rest =>
    let digits := (rest.take 2).takeWhile isOctal
    .ok ([Char.ofNat (octalValue digits)], digits.length + 1)
  | c :: rest =>
    if c.isDigit then
      let digits := c :: rest.take 2
      if digits.length = 3 ∧ digits.all isOctal ∧ octalValue digits ≤ 255 then
        .ok ([Char.ofNat (octalValue digits)], 3)
      else .error .badEscape
    else match letterEscapes.find? (·.1 == c) with
      | some (_, n) => .ok ([Char.ofNat n], 1)
      | none => if c.isAlpha then .error .badEscape else .ok (['\\', c], 1)
  | [] => .error .badEscape

/-- The text of a template, after the first `skip` characters. -/
def expandFrom (whole : List Char) : (skip : Nat) → List Char → Except Fault (List Char)
  | _, [] => .ok []
  | skip + 1, _ :: rest => expandFrom whole skip rest
  | 0, c :: rest =>
    if c = '\\' then do
      let (text, used) ← readEscape whole rest
      return text ++ (← expandFrom whole used rest)
    else do return c :: (← expandFrom whole 0 rest)

/-! ## References to the step's own outputs -/

def outputsWord : List Char := "outputs.".toList

/-- Replaces each `outputs.` that no dot precedes. The first `skip` characters belong to a word that
has been replaced; `previous` is the character before the text. -/
def qualifyFrom (replacement : List Char) : (skip : Nat) → (previous : Char) → List Char → List Char
  | _, _, [] => []
  | skip + 1, _, c :: rest => qualifyFrom replacement skip c rest
  | 0, previous, c :: rest =>
    if previous ≠ '.' ∧ outputsWord.isPrefixOf (c :: rest) then
      replacement ++ qualifyFrom replacement (outputsWord.length - 1) c rest
    else c :: qualifyFrom replacement 0 c rest

/-- The condition with its outputs referred to through the step's id. -/
def qualify (id : String) (condition : Value) : Except Fault String := do
  let replacement ← expandFrom outputsWord 0 ("steps." ++ id ++ ".outputs.").toList
  return String.ofList (qualifyFrom replacement 0 ' ' (← condition.string).toList)

def negate (condition : String) : String := "!(" ++ condition ++ ")"

/-! ## From conditions to gates -/

def defaultId (n : Nat) : String := "bail_if_" ++ toString n

/-- The steps after edits of mappings that stand among them. -/
def replay (edits : List Edit) (steps : List Value) : List Value :=
  steps.map (·.applyAll edits)

/-- Puts the gate on every step from the `position`-th on. -/
def gateFrom (gate : String) : (count position : Nat) → List Value → List Edit →
    Except Fault (List Value × List Edit)
  | 0, _, steps, log => .ok (steps, log)
  | count + 1, position, steps, log =>
    match steps[position]? with
    | none => .ok (steps, log)
    | some step => do
      let existing ← step.field? "if"
      let gated ← Gate.inFrontOf gate existing
      let (step, edits) := step.withFields (Fields.put "if" (.str gated) (← step.spread))
      gateFrom gate count (position + 1) (replay edits (steps.set position step)) (log ++ edits)

/-- Takes the condition out of the step at `position`, the `n`-th that bails, and puts it on all
later steps. -/
def resolveOne (n position : Nat) (steps : List Value) (log : List Edit) :
    Except Fault (List Value × List Edit) :=
  match steps[position]? with
  | none => .ok (steps, log)
  | some step => do
    let fields ← step.fieldsOf
    let fields :=
      if (Value.given? (Fields.get? "id" fields)).isSome then fields
      else Fields.put "id" (.str (defaultId n)) fields
    match Fields.get? "id" fields, Fields.get? "bail_if" fields with
    | some id, some condition => do
      let gate := negate (← qualify (← id.text) condition)
      let (step, edits) := step.withFields (Fields.erase "bail_if" fields)
      gateFrom gate (steps.length - (position + 1)) (position + 1)
        (replay edits (steps.set position step)) (log ++ edits)
    | _, _ => .error .missingKey

def resolveAt : (n : Nat) → (positions : List Nat) → List Value → List Edit →
    Except Fault (List Value × List Edit)
  | _, [], steps, log => .ok (steps, log)
  | n, position :: rest, steps, log => do
    let (steps, log) ← resolveOne n position steps log
    resolveAt (n + 1) rest steps log

/-- The positions of the steps that bail, counted from `i`. -/
def positionsFrom : (i : Nat) → List Value → Except Fault (List Nat)
  | _, [] => .ok []
  | i, step :: rest => do
    let bail ← step.field? "bail_if"
    let more ← positionsFrom (i + 1) rest
    return if (Value.given? bail).isSome then i :: more else more

/-- Takes every `bail_if` that is left out of the steps from the `position`-th on. -/
def dropFrom : (count position : Nat) → List Value → List Edit →
    Except Fault (List Value × List Edit)
  | 0, _, steps, log => .ok (steps, log)
  | count + 1, position, steps, log =>
    match steps[position]? with
    | none => .ok (steps, log)
    | some step => do
      let fields ← step.fieldsOf
      let (step, edits) := step.withFields (Fields.erase "bail_if" fields)
      dropFrom count (position + 1) (replay edits (steps.set position step)) (log ++ edits)

/-- The steps with gates in place of bail conditions, and the edits made to shared ones. -/
def resolveAll (steps : List Value) : Except Fault (List Value × List Edit) := do
  let positions ← positionsFrom 0 steps
  let (steps, log) ← resolveAt 1 positions steps []
  dropFrom steps.length 0 steps log

end Bail

end StepLoom
