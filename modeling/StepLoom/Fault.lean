import StepLoom.Text.Quoted

/-!
# What can go wrong

Every failure of the tool, by its cause. `Fault.message` gives the words shown to the user; failures
of data with the wrong shape have none.
-/

namespace StepLoom

inductive Fault where
  /-- A setup is referenced and not defined. -/
  | unknownSetup (name : String)
  /-- A glob pattern has a run of stars that means nothing. -/
  | invalidPattern (pattern : String)
  /-- Path checks need a working tree, and no setup checks one out. -/
  | missingCheckout
  /-- Setups wait for each other; the edges are those that nothing resolves. -/
  | cycle (edges : List String)
  /-- Every step id for the patterns is taken. -/
  | noFreeId (patterns : List String)
  | notAWorkflow (file : String)
  | jobsNotAMapping (file : String)
  | jobNotAMapping (file job : String)
  | stepNotAMapping (file job : String) (index : Nat)
  | stepRunsAndUses (file job : String) (index : Nat)
  | setupNotSteps (file setup : String)
  /-- An element that should be a key with its value has another length. -/
  | notAPair (index length : Nat)
  | dockerAction (uses : String)
  | notANodeAction (uses : String) (runner : String)
  /-- A calendar date that does not exist, a number out of range and the like. -/
  | invalidData (text : String)
  | templateMissing (path : String)
  | includeMissing (file : String) (template : String)
  | templatesDirMissing (path : String)
  | actionMissing (uses : String) (dir : String)
  /-- A git command ended with the given code. -/
  | gitFailed (args : List String) (code : Int)
  /-- A text is not YAML, or not data of the kind that is read. -/
  | yaml
  /-- An operation met a value of a kind that it is not defined on. -/
  | illTyped
  /-- A value of a kind without fields was asked for one. -/
  | noMember
  | missingKey
  | outOfRange
  /-- A directory was read or written as a file. -/
  | isDirectory
  | fileMissing (path : String)
  | fileExists (path : String)
  | notADirectory (path : String)
  /-- A replacement template has an escape that means nothing. -/
  | badEscape
  /-- References are nested deeper than there are setups; no table brings this about. -/
  | tooDeep
  /-- An integer has too many digits; to read it they were counted. -/
  | tooManyDigits (count : Option Nat)
  /-- An integer is beyond all floating-point numbers. -/
  | tooLarge
  /-- A value that is a part of itself was to be written out. -/
  | endless
  /-- A path or a variable for the system holds a NUL. -/
  | embeddedNul
deriving DecidableEq, Repr

namespace Fault

/-- The place of a job in a workflow file. -/
def jobPlace (file job : String) : String := "Workflow '" ++ file ++ "', job '" ++ job ++ "'"

def stepPlace (file job : String) (index : Nat) : String :=
  jobPlace file job ++ ", step " ++ toString index

/-- The words for a failure, if it has any. -/
def message? : Fault → Option String
  | unknownSetup name => some ("Invalid setup reference: '" ++ name ++ "' is not defined")
  | invalidPattern pattern =>
    some ("Invalid pattern: " ++ pattern ++ " - only * and ** replacements are supported")
  | missingCheckout =>
    some "You must have a 'checkout' setup if you are using step- or job-level paths"
  | cycle edges => some ("Cycle in setup dependencies: " ++ ", ".intercalate edges)
  | noFreeId patterns => some ("Could not assign a step id for paths " ++ Text.quoteAll patterns)
  | notAWorkflow file => some ("Not a valid workflow file " ++ file)
  | jobsNotAMapping file => some ("Workflow '" ++ file ++ "': 'jobs' must be a mapping")
  | jobNotAMapping file job => some (jobPlace file job ++ ": must be a mapping")
  | stepNotAMapping file job index => some (stepPlace file job index ++ ": must be a mapping")
  | stepRunsAndUses file job index =>
    some (stepPlace file job index ++ ": can't have both 'run' and 'uses'")
  | setupNotSteps file setup =>
    some ("Workflow '" ++ file ++ "', setup '" ++ setup
      ++ "': must be a list of steps or a mapping")
  | notAPair index length =>
    some ("dictionary update sequence element #" ++ toString index ++ " has length "
      ++ toString length ++ "; 2 is required")
  | dockerAction uses => some ("Can only run node actions: " ++ uses ++ " is a docker image")
  | notANodeAction uses runner =>
    some ("Can only run node actions: " ++ uses ++ " uses " ++ runner)
  | invalidData text => some text
  | templateMissing path => some ("Workflow template not found at " ++ path)
  | includeMissing file template =>
    some ("Included file " ++ file ++ " not found (from " ++ template ++ ")")
  | templatesDirMissing path => some ("Templates directory not found at " ++ path)
  | actionMissing uses dir =>
    some ("No action.yml found in " ++ uses ++ " (downloaded to " ++ dir ++ ")")
  | gitFailed args code =>
    some ("Command '" ++ Text.quoteAll ("git" :: args) ++ "' returned non-zero exit status "
      ++ toString code ++ ".")
  | fileMissing path => some ("No such file or directory: " ++ path)
  | fileExists path => some ("File exists: " ++ path)
  | notADirectory path => some ("Not a directory: " ++ path)
  | tooManyDigits count =>
    some ("Exceeds the limit (4300 digits) for integer string conversion"
      ++ (match count with
        | some n => ": value has " ++ toString n ++ " digits"
        | none => "")
      ++ "; use sys.set_int_max_str_digits() to increase the limit")
  | embeddedNul => some "embedded null byte"
  | yaml | illTyped | noMember | missingKey | outOfRange | isDirectory | badEscape | tooDeep
  | tooLarge | endless => none

end Fault

end StepLoom
