import StepLoom.Git

/-!
# The changes to check

A local run looks at the files that changed since the branch left its base. The base is handed on to
the child processes through the environment.
-/

namespace StepLoom

namespace Changes

/-- The base that is asked for, or else the one that git tells; the last commit if there is none. -/
def base (root : Path) (asked : Option String) : Act String := do
  match asked.filter fun s => !s.isEmpty with
  | some name => return name
  | none =>
    match (← Git.base (some root.text)).filter fun s => !s.isEmpty with
    | some name => return name
    | none =>
      Act.printError
        "Warning: Unable to determine the base ref for this branch. Using HEAD"
      return "HEAD"

/-- The files that changed since the base, which is set in the environment. -/
def prepare (root : Path) (asked : Option String) : Act (List String) := do
  let name ← base root asked
  Act.setVariable Check.baseRefVariable name
  Git.changedFiles name root.text

end Changes

end StepLoom
