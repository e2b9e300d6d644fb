import StepLoom.Fault
import StepLoom.Path

/-!
# Files and directories

A tree holds entries under the names that lead to them: from the working directory, or from the root
of the file system, whose name is a slash. Names that lead up from the working directory begin with
`..`. The working directory is always there, and so are the directories that it lies in; what else
they hold is not known before it is written.

An entry stands in a directory of the tree (`Tree.put` adds those that are missing). A path is
followed name by name, and each name on the way has to be a directory, also one that `..` leads out
of again (`Tree.follow`).
-/

namespace StepLoom

inductive Entry where
  | directory
  | file (text : String)
deriving DecidableEq, Repr

structure Tree where
  entries : List (List String × Entry) := []
deriving DecidableEq, Repr

namespace Tree

/-! ## Entries -/

/-- The name of the root of the file system. -/
def rootName : String := "/"

/-- Whether names lead to the working directory or upwards from it. -/
def leadsUp (names : List String) : Bool := names.all (· == "..")

/-- The names from which a path starts. -/
def startOf (p : Path) : List String :=
  match p.origin with
  | .root _ => [rootName]
  | _ => []

/-- The names that a path gives, not yet followed. -/
def namesOf (p : Path) : List String := startOf p ++ p.names

def entry? (t : Tree) (names : List String) : Option Entry :=
  if leadsUp names || names == [rootName] then some .directory
  else (t.entries.find? fun (k, _) => k == names).map (·.2)

/-- Replaces the entry under some names, or adds it at the end. -/
def set (names : List String) (e : Entry) : List (List String × Entry) → List (List String × Entry)
  | [] => [(names, e)]
  | (k, old) :: rest => if k = names then (k, e) :: rest else (k, old) :: set names e rest

/-- Adds directories for the names of `rest`, below the names of `above`. -/
def addDirectories (t : Tree) : (above rest : List String) → Tree
  | _, [] => t
  | above, name :: rest =>
    let here := above ++ [name]
    let t := if (t.entry? here).isSome then t else ⟨set here .directory t.entries⟩
    addDirectories t here rest

/-- Puts an entry, with the directories that lead to it. -/
def put (t : Tree) (names : List String) (e : Entry) : Tree :=
  ⟨set names e (t.addDirectories [] names.dropLast).entries⟩

/-- Puts files, given by path and text. -/
def putFiles (t : Tree) (files : List (String × String)) : Tree :=
  files.foldl (fun t (path, text) => t.put (namesOf (.ofText path)) (.file text)) t

/-- Puts directories. -/
def putDirectories (t : Tree) (paths : List String) : Tree :=
  paths.foldl (fun t path => t.put (namesOf (.ofText path)) .directory) t

/-- The names of what stands in a directory. -/
def namesIn (t : Tree) (directory : List String) : List String :=
  t.entries.filterMap fun (k, _) =>
    if k ≠ [] ∧ k.dropLast = directory then k.getLast? else none

/-! ## Following a path -/

/-- Why a path leads nowhere. -/
inductive Dead where
  | missing
  | notADirectory
deriving DecidableEq, Repr

/-- The names of the directory around a directory; nothing is around the root. -/
def upFrom (here : List String) : List String :=
  if here = [rootName] then here else if leadsUp here then ".." :: here else here.dropLast

/-- The names of the place that `rest` leads to, starting in the directory `here`. -/
def follow (t : Tree) : (here rest : List String) → Except Dead (List String)
  | here, [] => .ok here
  | here, name :: rest =>
    match t.entry? here with
    | none => .error .missing
    | some (.file _) => .error .notADirectory
    | some .directory =>
      follow t (if name = ".." then upFrom here else here ++ [name]) rest

def place (t : Tree) (p : Path) : Except Dead (List String) := t.follow (startOf p) p.names

/-- What a path leads to. -/
def at? (t : Tree) (p : Path) : Option Entry :=
  match t.place p with
  | .ok names => t.entry? names
  | .error _ => none

def has (t : Tree) (p : Path) : Bool := (t.at? p).isSome

def isDirectory (t : Tree) (p : Path) : Bool := t.at? p == some .directory

def isFile (t : Tree) (p : Path) : Bool := (t.at? p).any (· != .directory)

/-- What stands in the directory that a path leads to. -/
def list (t : Tree) (p : Path) : List String :=
  match t.place p with
  | .ok names => t.namesIn names
  | .error _ => []

/-! ## Changing the tree -/

def Dead.fault (p : Path) : Dead → Fault
  | .missing => .fileMissing p.text
  | .notADirectory => .notADirectory p.text

/-- A new directory in a directory that is there; one that is there itself is fine. -/
def makeDirectory (t : Tree) (p : Path) : Except Fault Tree :=
  match t.place p with
  | .error d => .error (d.fault p)
  | .ok names =>
    match t.entry? names with
    | some .directory => .ok t
    | some (.file _) => .error (.fileExists p.text)
    | none => .ok ⟨set names .directory t.entries⟩

/-- A new directory with those that lead to it. `rest` is the way to it backwards. -/
def makeDirectoriesTo (t : Tree) (origin : Origin) : (rest : List String) → Except Fault Tree
  | [] => .ok t
  | name :: rest =>
    let p : Path := ⟨origin, (name :: rest).reverse⟩
    match t.makeDirectory p with
    | .error (.fileMissing _) => do (← makeDirectoriesTo t origin rest).makeDirectory p
    | other => other

def makeDirectories (t : Tree) (p : Path) : Except Fault Tree :=
  t.makeDirectoriesTo p.origin p.names.reverse

/-- Writes a file into a directory that is there. -/
def write (t : Tree) (p : Path) (text : String) : Except Fault Tree :=
  match t.place p with
  | .error d => .error (d.fault p)
  | .ok names =>
    match t.entry? names with
    | some .directory => .error .isDirectory
    | _ => .ok ⟨set names (.file text) t.entries⟩

/-- The path that some names give. -/
def pathOf (names : List String) : Path :=
  if names.head? = some rootName then ⟨.root false, names.drop 1⟩ else ⟨.here, names⟩

/-- The files of `t` that are not the same in `before`, with their texts. -/
def changesSince (t before : Tree) : List (Path × String) :=
  t.entries.filterMap fun (names, e) =>
    match e with
    | .file text => if before.entry? names = some e then none else some (pathOf names, text)
    | .directory => none

end Tree

end StepLoom
