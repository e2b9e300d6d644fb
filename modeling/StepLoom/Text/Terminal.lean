/-!
# Text for a screen that is not a terminal

`dropEscapes` removes the control sequences that move a cursor or set colours: an escape, an opening
bracket, parameter characters, intermediate characters, and a final character.
-/

namespace StepLoom.Text.Terminal

def isParameter (c : Char) : Bool := decide (0x30 ≤ c.toNat ∧ c.toNat ≤ 0x3F)
def isIntermediate (c : Char) : Bool := decide (0x20 ≤ c.toNat ∧ c.toNat ≤ 0x2F)
def isFinal (c : Char) : Bool := decide (0x40 ≤ c.toNat ∧ c.toNat ≤ 0x7E)

/-- What follows the control sequence whose parameters begin the text, if it is complete. -/
def afterSequence (cs : List Char) : Option (List Char) :=
  match (cs.dropWhile isParameter).dropWhile isIntermediate with
  | c :: rest => if isFinal c then some rest else none
  | [] => none

theorem length_dropWhile_le (p : Char → Bool) (cs : List Char) :
    (cs.dropWhile p).length ≤ cs.length := by
  induction cs with
  | nil => simp
  | cons c rest ih =>
    rw [List.dropWhile_cons]
    split
    · exact Nat.le_succ_of_le ih
    · exact Nat.le_refl _

theorem afterSequence_length {cs rest : List Char} (h : afterSequence cs = some rest) :
    rest.length ≤ cs.length := by
  unfold afterSequence at h
  split at h
  next c tail heq =>
    split at h
    · cases h
      have h₁ := length_dropWhile_le isIntermediate (cs.dropWhile isParameter)
      have h₂ := length_dropWhile_le isParameter cs
      rw [heq] at h₁
      simp only [List.length_cons] at h₁
      omega
    · cases h
  next => cases h

def dropEscapesFrom : List Char → List Char
  | [] => []
  | c :: cs =>
    if c = '\x1b' then
      match cs with
      | [] => [c]
      | d :: ds =>
        if d = '[' then
          match _h : afterSequence ds with
          | some rest => dropEscapesFrom rest
          | none => c :: dropEscapesFrom (d :: ds)
        else c :: dropEscapesFrom (d :: ds)
    else c :: dropEscapesFrom cs
termination_by cs => cs.length
decreasing_by
  · have := afterSequence_length _h; simp only [List.length_cons]; omega
  all_goals simp

def dropEscapes (s : String) : String := String.ofList (dropEscapesFrom s.toList)

end StepLoom.Text.Terminal
