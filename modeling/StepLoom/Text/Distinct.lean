/-!
# Lists without repetition

`distinct` keeps the first of equal members, `addOnce` adds a member that is not there yet.
-/

namespace StepLoom

/-- The set with one more member, at the end if it is new. -/
def addOnce (x : String) (xs : List String) : List String := if x ∈ xs then xs else xs ++ [x]

/-- The members in order of their first appearance. -/
def distinct (xs : List String) : List String := xs.foldl (fun acc x => addOnce x acc) []

end StepLoom
