import StepLoom.Text.Blank

/-!
# Paths

A path names a place by the names on the way to it, from the root of the file system or from the
working directory. `Path.ofText` reads a path: repeated slashes, a slash at the end and the name `.`
mean nothing, while `..` is kept. `Path.text` writes it back.

The working directory has no name of its own here. A path that is made absolute (`Path.resolve`)
starts with the mark `<CWD>` for it.
-/

namespace StepLoom

/-- Where a path starts. -/
inductive Origin where
  /-- At the working directory, which is left out of the text. -/
  | here
  /-- At the working directory, written out. -/
  | workDir
  /-- At the root of the file system, written as one slash or as two. -/
  | root (double : Bool)
deriving DecidableEq, Repr

structure Path where
  origin : Origin
  names : List String
deriving DecidableEq, Repr

namespace Path

/-! ## Text -/

/-- What the slashes at the beginning of a text say. Exactly two of them are a root of its own. -/
def originOf (cs : List Char) : Origin :=
  match (cs.takeWhile (· = '/')).length with
  | 0 => .here
  | n => .root (n == 2)

/-- Whether a piece between slashes names anything. -/
def isName (piece : String) : Bool := piece != "" && piece != "."

/-- A NUL ends the texts of the system, so none stands inside a path or a variable. -/
def holdsNul (text : String) : Bool := text.toList.contains '\x00'

def ofText (s : String) : Path := ⟨originOf s.toList, (Text.split s '/').filter isName⟩

def originText : Origin → String
  | .here => ""
  | .workDir => "<CWD>/"
  | .root double => if double then "//" else "/"

def text (p : Path) : String :=
  match p.origin, p.names with
  | .here, [] => "."
  | .workDir, [] => "<CWD>"
  | origin, names => originText origin ++ "/".intercalate names

/-! ## Walking -/

/-- The place that `q` names when one starts at `p`; a path with an origin of its own stays. -/
def join (p q : Path) : Path :=
  match q.origin with
  | .here => ⟨p.origin, p.names ++ q.names⟩
  | _ => q

instance : HDiv Path Path Path := ⟨join⟩
instance : HDiv Path String Path := ⟨fun p s => p.join (ofText s)⟩

def parent (p : Path) : Path := ⟨p.origin, p.names.dropLast⟩

/-- Whether a path without `..` behind a name stays in the working directory. -/
def isInside (p : Path) : Bool := p.origin == .here && p.names.head? != some ".."

/-- The last name, empty if there is none. -/
def name (p : Path) : String := p.names.getLast?.getD ""

/-! ## Absolute and relative paths -/

/-- Names without a `..` after a name. What leads above the start stays if `above` says so; above
the root of the file system there is nothing. `seen` holds the names so far, the last one first. -/
def settleFrom (above : Bool) : (seen : List String) → List String → List String
  | seen, [] => seen.reverse
  | seen, ".." :: rest =>
    match seen with
    | [] => settleFrom above (if above then [".."] else []) rest
    | ".." :: more => settleFrom above (".." :: ".." :: more) rest
    | _ :: more => settleFrom above more rest
  | seen, name :: rest => settleFrom above (name :: seen) rest

/-- The absolute path of the same place, without `..` where that can be told. A root of two slashes
is the usual one. -/
def resolve (p : Path) : Path :=
  match p.origin with
  | .root _ => ⟨.root false, settleFrom false [] p.names⟩
  | _ => ⟨.workDir, settleFrom true [] p.names⟩

/-- The names that two lists do not share at the beginning. -/
def afterCommon : List String → List String → List String × List String
  | a :: as, b :: bs => if a = b then afterCommon as bs else (a :: as, b :: bs)
  | as, bs => (as, bs)

/-- The way to `p` from the directory `start`. -/
def relativeTo (p start : Path) : Path :=
  let (up, down) := afterCommon start.resolve.names p.resolve.names
  ⟨.here, up.map (fun _ => "..") ++ down⟩

end Path

end StepLoom
