import StepLoom.Pattern.Check

/-!
# Step ids for path checks

A registry hands out the ids of path checks to all jobs of a document. The same patterns get the
same id every time; patterns whose names come out alike are told apart by a number.
-/

namespace StepLoom

/-- The ids handed out, with the patterns that each stands for. -/
structure Registry where
  claims : List (String × List String) := []

namespace Registry

/-- Work that may fail and keeps the ids that it has claimed. -/
abbrev Claiming := ExceptT Fault (StateM Registry)

/-- How many ids are tried for one name. -/
def maxTries : Nat := 1000

def owner? (r : Registry) (id : String) : Option (List String) :=
  (r.claims.find? fun (k, _) => k == id).map (·.2)

/-- The name itself, then the name with 1, 2, … -/
def candidate (name : String) (n : Nat) : String :=
  if n = 0 then name else name ++ "-" ++ toString n

/-- The first candidate from the `n`-th on that is free or already stands for the patterns. -/
def claimFrom (r : Registry) (patterns : List String) (name : String) :
    (tries n : Nat) → Option (String × Registry)
  | 0, _ => none
  | tries + 1, n =>
    let id := candidate name n
    match r.owner? id with
    | none => some (id, ⟨r.claims ++ [(id, patterns)]⟩)
    | some owner =>
      if owner = patterns then some (id, r) else claimFrom r patterns name tries (n + 1)

/-- The step id for some patterns, and the registry that remembers it. -/
def claim (r : Registry) (patterns : List String) : Except Fault (String × Registry) :=
  match r.claimFrom patterns (Check.outputName patterns) maxTries 0 with
  | some answer => .ok answer
  | none => .error (.noFreeId patterns)

end Registry

end StepLoom
