import StepLoom.Pattern.Check
import StepLoom.Text.Distinct
import StepLoom.Workspace

/-!
# What git tells about the repository

The root of the repository, the branch that the work will be merged into, the files that changed
since then, and fetching a repository.
-/

namespace StepLoom

namespace Git

/-- The root of the repository that a directory is in. -/
def root (cwd : Option String) : Act Path := do
  return .ofText (← Act.git ["rev-parse", "--show-toplevel"] cwd)

/-- The result of a git command, none if the command fails. -/
def attempt (args : List String) (cwd : Option String) : Act (Option String) := do
  try return some (← Act.git args cwd)
  catch
    | .gitFailed .. => return none
    | e => throw e

/-- The first of some commands that succeeds. -/
def firstAnswer (cwd : Option String) : List (List String) → Act (Option String)
  | [] => return none
  | args :: rest => do
    match ← attempt args cwd with
    | some answer => return some answer
    | none => firstAnswer cwd rest

/-- How to find the base of a branch: the branch it follows, or where it left a main branch. -/
def baseQueries : List (List String) :=
  [["rev-parse", "--abbrev-ref", "--symbolic-full-name", "@\x7bupstream\x7d"],
    ["merge-base", "HEAD", "origin/main"],
    ["merge-base", "HEAD", "origin/master"]]

/-- The base that the environment names, or else the one that git knows. -/
def base (cwd : Option String) : Act (Option String) := do
  match ← Act.nonemptyVariable Check.baseRefVariable with
  | some name => return some name
  | none => firstAnswer cwd baseQueries

/-- The files named in listings, each once. -/
def namesIn (listings : List String) : List String :=
  (distinct (listings.flatMap Text.lines)).filter fun file => !file.isEmpty

/-- The files that differ from the base, and then those that git does not know. -/
def changedFiles (base : String) (root : String) : Act (List String) := do
  let changed ← Act.git ["diff", "--name-only", base, "--relative"] (some root)
  let unknown ← Act.git ["ls-files", "--others", "--exclude-standard"] (some root)
  return namesIn [changed, unknown]

/-- Fetches the newest state of `owner/name`, at the given ref if there is one. -/
def clone (repository target : String) (ref : Option String) : Act Unit := do
  let branch := match ref.filter fun r => !r.isEmpty with
    | some r => ["--branch", r]
    | none => []
  discard (Act.git (["clone", "--quiet", "--depth", "1"] ++ branch
    ++ ["https://github.com/" ++ repository ++ ".git", target]) none)

end Git

end StepLoom
