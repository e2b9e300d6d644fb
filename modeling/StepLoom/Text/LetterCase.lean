import StepLoom.Text.LetterCase.Table

/-!
# Letter case

`upper` and `lower` map every letter, also those whose other case has several characters. The lower
case of a capital sigma depends on its place: at the end of a word it is `ς`.
-/

namespace StepLoom.Text

def inRanges (ranges : List (Nat × Nat)) (n : Nat) : Bool :=
  ranges.any fun (a, b) => decide (a ≤ n ∧ n ≤ b)

/-- The shift of the run that holds the code point, zero if none does. -/
def shiftIn (runs : List CaseRun) (n : Nat) : Int :=
  match runs.find? fun r => decide (r.first ≤ n ∧ n ≤ r.last ∧ (n - r.first) % r.stride = 0) with
  | some r => r.shift
  | none => 0

def mapCase (runs : List CaseRun) (expansions : List (Nat × List Nat)) (c : Char) : List Char :=
  match expansions.find? (·.1 == c.toNat) with
  | some (_, codes) => codes.map Char.ofNat
  | none => [Char.ofNat (Int.toNat (c.toNat + shiftIn runs c.toNat))]

def upperChar (c : Char) : List Char :=
  if c.toNat < 128 then [c.toUpper] else mapCase upperRuns upperExpansions c

def lowerChar (c : Char) : List Char :=
  if c.toNat < 128 then [c.toLower] else mapCase lowerRuns lowerExpansions c

def upper (s : String) : String := String.ofList (s.toList.flatMap upperChar)

/-- The first character that is not skipped is a cased letter. -/
def meetsCased (cs : List Char) : Bool :=
  match cs.dropWhile fun c => inRanges caseIgnorableRanges c.toNat with
  | [] => false
  | c :: _ => inRanges casedRanges c.toNat

/-- Lower case of the text whose reversed start is `before`. -/
def lowerAfter (before : List Char) : List Char → List Char
  | [] => []
  | c :: rest =>
    let low :=
      if c = 'Σ' then if meetsCased before && !meetsCased rest then ['ς'] else ['σ']
      else lowerChar c
    low ++ lowerAfter (c :: before) rest

def lower (s : String) : String := String.ofList (lowerAfter [] s.toList)

end StepLoom.Text
