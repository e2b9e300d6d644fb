import StepLoom.Fault

/-!
# How a run ends
-/

namespace StepLoom

/-- How a run ends. -/
inductive Exit where
  | success
  /-- Jobs have run and found issues. -/
  | issues
  /-- A failure has been told to the user. -/
  | reported (fault : Fault)
  /-- A failure that no command expects. -/
  | crashed (fault : Fault)
  /-- The command line asks for nothing that the tool knows. -/
  | misused
deriving DecidableEq, Repr

def Exit.code : Exit → UInt32
  | success => 0
  | misused => 2
  | _ => 1

end StepLoom
