import StepLoom.Main
import StepLoom.Proofs.Graph.Visits
import StepLoom.Proofs.Graph.Reached
import StepLoom.Proofs.Graph.Conditions
import StepLoom.Proofs.Graph.Ties
import StepLoom.Proofs.Check
import StepLoom.Proofs.Job
import StepLoom.Proofs.Graph.Steps
import StepLoom.Proofs.Graph.Job
import StepLoom.Proofs.Graph.Built
import StepLoom.Proofs.Graph.References
import StepLoom.Proofs.PathConditions
import StepLoom.Proofs.Graph.Ordering
import StepLoom.Proofs.Compile.Bails
import StepLoom.Proofs.Compile.Blocks
import StepLoom.Proofs.Compile.Copies
import StepLoom.Proofs.Layout
import StepLoom.Proofs.Compile.Phases
import StepLoom.Proofs.Graph.Cycles
import StepLoom.Proofs.Compile.Claims
import StepLoom.Proofs.Compile.Readable
import StepLoom.Proofs.Compile.Progress
import StepLoom.Proofs.Outcome
import StepLoom.Proofs.Condition.Scan
import StepLoom.Proofs.Condition.Tokens
import StepLoom.Proofs.Condition.Syntax
import StepLoom.Proofs.Condition.Changed
import StepLoom.Proofs.Condition.Renamed
import StepLoom.Proofs.Condition.Bails
import StepLoom.Proofs.Compile.Stacked
import StepLoom.Proofs.Condition.Gates
import StepLoom.Proofs.Compile.Slots
import StepLoom.Proofs.Compile.Woven
import StepLoom.Proofs.Conditions
import StepLoom.Proofs.Openings
import StepLoom.Proofs.OwnPatterns
import StepLoom.Proofs.Graph.Regular
import StepLoom.Proofs.Compile.Faults
import StepLoom.Proofs.Scopes
import StepLoom.Proofs.TwoRuns
import StepLoom.Proofs.Sharing.Closed
import StepLoom.Proofs.Sharing.Unshare
import StepLoom.Proofs.Sharing.Copies
import StepLoom.Proofs.Sharing.Graph
import StepLoom.Proofs.Sharing.Block
import StepLoom.Proofs.Sharing
import StepLoom.Proofs.Apart
import StepLoom.Proofs.Compile.Naming
import StepLoom.Proofs.Independence
import StepLoom.Proofs.Requests
import StepLoom.Proofs.Compile.Sources
import StepLoom.Proofs.Once
import StepLoom.Proofs.Keys
import StepLoom.Proofs.Ids
import StepLoom.Proofs.Plain
import StepLoom.Proofs.Idempotent
import StepLoom.Proofs.Local.Cache
import StepLoom.Proofs.Check.Agreement
import StepLoom.Proofs.Graph.Leftover
import StepLoom.Proofs.Graph.Queue
import StepLoom.Proofs.Graph.Pushed
import StepLoom.Proofs.Compile.Detached
import StepLoom.Proofs.Compile.Resolved
import StepLoom.Proofs.OwnGate
import StepLoom.Proofs.Compile.Sound
import StepLoom.Proofs.Template.Writes
import StepLoom.Proofs.DeepCopy
import StepLoom.Proofs.Template.Validation
import StepLoom.Proofs.Template.RoundTrip
import StepLoom.Proofs.Pattern.Reading
import StepLoom.Proofs.Pattern.Selecting
import StepLoom.Proofs.Graph.Calls
import StepLoom.Proofs.Graph.Depth
import StepLoom.Proofs.Graph.TwoTables
import StepLoom.Proofs.Unreferenced
import StepLoom.Proofs.LetterCase
import StepLoom.Proofs.Local.Acts
import StepLoom.Proofs.Local.Listings
import StepLoom.Proofs.Local.Search
import StepLoom.Proofs.Local.Steps
import StepLoom.Proofs.Local.Accounting
import StepLoom.Proofs.Graph.Ending
import StepLoom.Proofs.Graph.Intact
