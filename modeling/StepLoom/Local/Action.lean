import StepLoom.Git
import StepLoom.Local.Shell
import StepLoom.Text.LetterCase
import StepLoom.Yaml.Reader

/-!
# Running an action

A step may use an action: a directory of the repository, or a directory in another repository, which
is fetched once into a cache. Only actions that run on node can be run locally. The inputs of the
step reach the action as environment variables.
-/

namespace StepLoom

namespace Action

/-! ## Fetching -/

/-- A reference `owner/name/directory@ref` to an action in another repository. -/
structure Reference where
  names : List String
  ref : String
deriving DecidableEq, Repr

def Reference.ofText (uses : String) : Reference :=
  let (path, ref) := Text.cutAt uses '@'
  ⟨Text.split path '/', ref⟩

def Reference.repository (r : Reference) : String := "/".intercalate (r.names.take 2)

/-- The way to the action inside its repository. -/
def Reference.directory (r : Reference) : List String := r.names.drop 2

def cacheDirectory : String := "node_modules/.actions-cache"

def isCacheChar (c : Char) : Bool := c.isAlpha || c == '_' || c == '-'

/-- The name of a reference in the cache. -/
def cacheName (uses : String) : String :=
  String.ofList (uses.toList.map fun c => if isCacheChar c then c else '-')

def cachePath (cacheRoot : Path) (uses : String) : Path :=
  cacheRoot / cacheDirectory / cacheName uses

/-- The directory of an action, whose repository is fetched unless it is in the cache. -/
def ensure (uses : String) (cacheRoot : Path) : Act Path := do
  let r := Reference.ofText uses
  let target := cachePath cacheRoot uses
  if !(← Act.has target) then
    Act.print ("Fetching " ++ uses)
    Git.clone r.repository target.text (some r.ref)
    Act.print "Fetched"
  return r.directory.foldl (fun (p : Path) (name : String) => p / name) target

/-! ## Describing -/

def descriptionFiles : List String := ["action.yml", "action.yaml"]

/-- The first of some files that is there. -/
def firstPresent (directory : Path) : List String → Act (Option Path)
  | [] => return none
  | name :: rest => do
    if ← Act.has (directory / name) then return some (directory / name)
    firstPresent directory rest

/-- What an action's description file says. -/
def load (directory : Path) (uses : String) : Act Value := do
  match ← firstPresent directory descriptionFiles with
  | none => throw (.actionMissing uses directory.text)
  | some file => return (← liftM (Yaml.read .full (← Act.readFile file))).orEmpty

/-! ## Running -/

/-- An input as the action sees it. -/
def inputText : Value → Except Fault String
  | .scalar (.bool b) => .ok (if b then "true" else "false")
  | v => v.text

def inputName (key : Scalar) : Except Fault String := do
  let name := (← (Value.ofKey key).text).toList.map fun c => if c = ' ' then '_' else c
  return "INPUT_" ++ Text.upper (String.ofList name)

def inputs : Fields → Except Fault Environment
  | [] => .ok []
  | (k, v) :: rest => do
    let name ← inputName k
    let text ← inputText v
    return (name, text) :: (← inputs rest)

/-- The directory of the action that a step uses. -/
def locate (uses : String) (root : Path) (step : Fields) : Act Path := do
  if Text.startsWith "./" uses then return (← Act.resolve (root / uses))
  match Value.given? (Fields.get? "local_cache_directory" step) with
  | some cache => ensure uses (← Act.resolve (root / (← liftM cache.string)))
  | none => ensure uses root

/-- The program that an action runs on node. -/
def mainOf (uses : String) (runs : Fields) : Except Fault Value := do
  let runner ← match Fields.get? "using" runs with
    | some v => v.text
    | none => pure ""
  match Text.startsWith "node" runner, Value.given? (Fields.get? "main" runs) with
  | true, some main => return main
  | _, _ =>
    throw (.notANodeAction uses (← ((Fields.get? "using" runs).getD .null).literal))

/-- Runs the action that a step uses. -/
def run (step : Value) (root : Path) : Act Findings := do
  let uses ← liftM (do (← step.index "uses").stringMember)
  let fields ← liftM step.fieldsOf
  if Text.startsWith "docker://" uses then throw (.dockerAction uses)
  let directory ← locate uses root fields
  let description ← load directory uses
  let runs ← liftM (do Value.fieldsOrNone (← description.field? "runs"))
  let main ← liftM (mainOf uses runs)
  let extra ← liftM (do inputs (← Value.fieldsOrNone (Fields.get? "with" fields)))
  let script := directory / (← liftM main.string)
  Shell.run (.program ["node", script.text]) root (Environment.putAll [] extra)

end Action

end StepLoom
