import StepLoom.Number.Binary64

/-!
# Workflow data

A workflow document is a tree of scalars, lists and mappings. A mapping keeps its fields in order
and holds each key once; numerically equal keys are one key, and so are equal moments. Beside lists
and mappings, YAML has lists of pairs and sets.

A document may use one mapping at several places. Such a mapping carries a *mark*, the same at each
of its places, and an edit of it reaches all of them (`Value.assign`). A mapping that stands at one
place only, and every fresh copy, is unmarked.

A list or mapping may also be a part of itself. It carries a mark, too, and stands inside itself as
`Value.again` with this mark. `Value.unroll` writes such a part out once more, so what is taken out
of an unrolled value never refers to what it was taken from.
-/

namespace StepLoom

/-- A day of the calendar. -/
structure Date where
  year : Nat
  month : Nat
  day : Nat
deriving DecidableEq, Repr

/-- A moment; `zone` is the offset from universal time in minutes, if one is known. -/
structure Timestamp where
  date : Date
  hour : Nat
  minute : Nat
  second : Nat
  microsecond : Nat
  zone : Option Int
deriving DecidableEq, Repr

/-- What may be a key: everything that has no parts, and pairs of these. -/
inductive Scalar where
  | null
  | bool (b : Bool)
  | int (n : Int)
  | float (x : Binary64)
  | str (s : String)
  | date (d : Date)
  | timestamp (t : Timestamp)
  | bytes (bs : List UInt8)
  | pair (first second : Scalar)
deriving DecidableEq, Repr

inductive Value where
  | scalar (s : Scalar)
  | list (items : List Value)
  /-- A member of a list of pairs. -/
  | pair (first second : Value)
  | set (members : List Scalar)
  | map (mark : Option Nat) (fields : List (Scalar × Value))
  /-- A list that is a part of itself. -/
  | ring (mark : Nat) (items : List Value)
  /-- The list or mapping around this place that has the mark. -/
  | again (mark : Nat)

instance : Inhabited Value := ⟨.scalar .null⟩
instance : Coe String Scalar := ⟨.str⟩
instance : Coe Scalar Value := ⟨.scalar⟩

/-! ## Keys -/

namespace Date

def isLeapYear (y : Nat) : Bool := y % 4 == 0 && (y % 100 != 0 || y % 400 == 0)

def daysInMonth (year month : Nat) : Nat :=
  if month = 2 then (if isLeapYear year then 29 else 28)
  else if [4, 6, 9, 11].contains month then 30 else 31

/-- The days before a year, counted from the beginning of the year one. -/
def daysBeforeYear (year : Nat) : Nat :=
  let y := year - 1
  365 * y + y / 4 - y / 100 + y / 400

/-- The days up to this one, counted from the beginning of the year one. -/
def dayNumber (d : Date) : Nat :=
  (List.range (d.month - 1)).foldl (fun n i => n + daysInMonth d.year (i + 1))
    (daysBeforeYear d.year) + d.day

end Date

namespace Timestamp

/-- The microseconds up to the moment by the clock of its zone. -/
def clock (t : Timestamp) : Nat :=
  (((t.date.dayNumber * 24 + t.hour) * 60 + t.minute) * 60 + t.second) * 1000000 + t.microsecond

/-- Moments of known zones are the same if they are at one time in the world; moments of unknown
zones if the clocks show the same. -/
def sameMoment (a b : Timestamp) : Bool :=
  match a.zone, b.zone with
  | some y, some z => (a.clock : Int) - y * 60000000 == (b.clock : Int) - z * 60000000
  | none, none => a.clock == b.clock
  | _, _ => false

end Timestamp

namespace Scalar

/-- The integer a scalar counts as, if it is a number with an integer value. -/
def toInt? : Scalar → Option Int
  | .bool b => some b.toNat
  | .int n => some n
  | .float x => x.toInt?
  | _ => none

/-- Two scalars name the same field: numbers and moments by value, pairs by their members,
everything else by identity of content. What is not a number and has no name is no key's equal. -/
def sameKey : Scalar → Scalar → Bool
  | .timestamp a, .timestamp b => a.sameMoment b
  | .pair a b, .pair c d => a.sameKey c && b.sameKey d
  | a, b =>
    match a.toInt?, b.toInt? with
    | some m, some n => m == n
    | none, none => a == b && a != .float .nan
    | _, _ => false

end Scalar

/-! ## Fields -/

abbrev Fields := List (Scalar × Value)

namespace Value

/-- The value that is a key. -/
def ofKey : Scalar → Value
  | .pair a b => .pair (ofKey a) (ofKey b)
  | s => .scalar s

/-- The key that a value is; nothing with changing parts is one. -/
def key? : Value → Option Scalar
  | .scalar s => some s
  | .pair a b => do return .pair (← a.key?) (← b.key?)
  | _ => none

end Value

namespace Fields

def get? (key : Scalar) : Fields → Option Value
  | [] => none
  | (k, v) :: rest => if key.sameKey k then some v else get? key rest

def has (key : Scalar) (fields : Fields) : Bool := (fields.get? key).isSome

/-- The first key stays and takes the new value; a new key goes to the end. -/
def put (key : Scalar) (value : Value) : Fields → Fields
  | [] => [(key, value)]
  | (k, v) :: rest => if key.sameKey k then (k, value) :: rest else (k, v) :: put key value rest

def erase (key : Scalar) : Fields → Fields
  | [] => []
  | (k, v) :: rest => if key.sameKey k then rest else (k, v) :: erase key rest

/-- Every field of `extra`, put in order. -/
def putAll (fields extra : Fields) : Fields :=
  extra.foldl (fun acc (k, v) => acc.put k v) fields

/-- The fields of a list of pairs in which a later pair wins over an earlier one of its key. -/
def ofPairs (pairs : List (Scalar × Value)) : Fields := putAll [] pairs

def keys (fields : Fields) : List Value := fields.map fun (k, _) => .ofKey k

end Fields

namespace Value

abbrev null : Value := .scalar .null
abbrev str (s : String) : Value := .scalar (.str s)
abbrev int (n : Int) : Value := .scalar (.int n)
abbrev bool (b : Bool) : Value := .scalar (.bool b)

/-- A mapping that stands at one place only. -/
abbrev record (fields : Fields) : Value := .map none fields

/-! ## Parts of themselves -/

mutual

/-- The value with `whole` where it refers to the mark. -/
def plug (mark : Nat) (whole : Value) : Value → Value
  | .scalar s => .scalar s
  | .list items => .list (plugItems mark whole items)
  | .pair a b => .pair (plug mark whole a) (plug mark whole b)
  | .set members => .set members
  | .map m fields =>
    if m = some mark then .map m fields else .map m (plugFields mark whole fields)
  | .ring m items => if m = mark then .ring m items else .ring m (plugItems mark whole items)
  | .again m => if m = mark then whole else .again m

def plugItems (mark : Nat) (whole : Value) : List Value → List Value
  | [] => []
  | v :: rest => plug mark whole v :: plugItems mark whole rest

def plugFields (mark : Nat) (whole : Value) : List (Scalar × Value) → List (Scalar × Value)
  | [] => []
  | (k, v) :: rest => (k, plug mark whole v) :: plugFields mark whole rest

end

/-- The same value, such that none of its parts refers to it. A list that is a part of itself is a
list again. -/
def unroll : Value → Value
  | .map (some m) fields => .map (some m) (plugFields m (.map (some m) fields) fields)
  | .ring m items => .list (plugItems m (.ring m items) items)
  | v => v

mutual

/-- The value with a reference in place of the mapping that has the mark. -/
def tie (mark : Nat) : Value → Value
  | .scalar s => .scalar s
  | .list items => .list (tieItems mark items)
  | .pair a b => .pair (tie mark a) (tie mark b)
  | .set members => .set members
  | .map m fields => if m = some mark then .again mark else .map m (tieFields mark fields)
  | .ring m items => .ring m (tieItems mark items)
  | .again m => .again m

def tieItems (mark : Nat) : List Value → List Value
  | [] => []
  | v :: rest => tie mark v :: tieItems mark rest

def tieFields (mark : Nat) : List (Scalar × Value) → List (Scalar × Value)
  | [] => []
  | (k, v) :: rest => (k, tie mark v) :: tieFields mark rest

end

/-- The fields of a mapping. -/
def fields? (v : Value) : Option Fields :=
  match v.unroll with
  | .map _ fields => some fields
  | _ => none

def isMap : Value → Bool
  | .map .. => true
  | _ => false

def isList : Value → Bool
  | .list _ | .ring .. => true
  | _ => false

/-! ## Equality

Lists are equal item by item. Mappings are equal when they have equal values under the same keys;
neither the order of their fields nor their marks count. Lists that are parts of themselves are
equal when they are one. -/

mutual

def equal : Value → Value → Bool
  | .scalar a, .scalar b => a.sameKey b
  | .list as, .list bs => equalItems as bs
  | .pair a b, .pair c d => a.equal c && b.equal d
  | .set as, .set bs => as.length == bs.length && as.all fun a => bs.any a.sameKey
  | .map _ as, .map _ bs => as.length == bs.length && equalFields as bs
  | .ring m _, .ring n _ => m == n
  | .again m, .again n => m == n
  | _, _ => false

def equalItems : List Value → List Value → Bool
  | [], [] => true
  | a :: as, b :: bs => a.equal b && equalItems as bs
  | _, _ => false

def equalFields : List (Scalar × Value) → Fields → Bool
  | [], _ => true
  | (k, a) :: rest, bs =>
    (match Fields.get? k bs with
      | some b => a.equal b
      | none => false) && equalFields rest bs

end

/-! ## Shared mappings -/

mutual

/-- The value after the mapping with the given mark has got new fields, wherever it stands. -/
def assign (mark : Nat) (fields : Fields) : Value → Value
  | .scalar s => .scalar s
  | .list items => .list (assignItems mark fields items)
  | .pair a b => .pair (a.assign mark fields) (b.assign mark fields)
  | .set members => .set members
  | .map m fs =>
    if m = some mark then .map m fields else .map m (assignFields mark fields fs)
  | .ring m items => .ring m (assignItems mark fields items)
  | .again m => .again m

def assignItems (mark : Nat) (fields : Fields) : List Value → List Value
  | [] => []
  | v :: rest => v.assign mark fields :: assignItems mark fields rest

def assignFields (mark : Nat) (fields : Fields) : List (Scalar × Value) → List (Scalar × Value)
  | [] => []
  | (k, v) :: rest => (k, v.assign mark fields) :: assignFields mark fields rest

end

mutual

/-- The marks in a value, one for each place. -/
def marks : Value → List Nat
  | .scalar _ => []
  | .list items => marksOfItems items
  | .pair a b => a.marks ++ b.marks
  | .set _ => []
  | .map m fields => m.toList ++ marksOfFields fields
  | .ring m items => m :: marksOfItems items
  | .again m => [m]

def marksOfItems : List Value → List Nat
  | [] => []
  | v :: rest => v.marks ++ marksOfItems rest

def marksOfFields : List (Scalar × Value) → List Nat
  | [] => []
  | (_, v) :: rest => v.marks ++ marksOfFields rest

end

mutual

/-- The value with the marks of its mappings replaced as `f` says. -/
def remark (f : Nat → Option Nat) : Value → Value
  | .scalar s => .scalar s
  | .list items => .list (remarkItems f items)
  | .pair a b => .pair (a.remark f) (b.remark f)
  | .set members => .set members
  | .map m fields => .map (m.bind f) (remarkFields f fields)
  | .ring m items => .ring m (remarkItems f items)
  | .again m => .again m

def remarkItems (f : Nat → Option Nat) : List Value → List Value
  | [] => []
  | v :: rest => v.remark f :: remarkItems f rest

def remarkFields (f : Nat → Option Nat) : List (Scalar × Value) → List (Scalar × Value)
  | [] => []
  | (k, v) :: rest => (k, v.remark f) :: remarkFields f rest

end

/-- The value with marks only on the mappings that stand at several places or in themselves. -/
def pruneMarks (v : Value) : Value :=
  let all := v.marks
  v.remark fun m => if 1 < all.count m then some m else none

end Value

/-- New fields for a shared mapping. -/
structure Edit where
  mark : Nat
  fields : Fields

/-- The edits, made one after another. -/
def Value.applyAll (edits : List Edit) (v : Value) : Value :=
  edits.foldl (fun v e => v.assign e.mark e.fields) v

/-- Giving the mapping `v` new fields: the new mapping, and the edit that reaches its other
places. -/
def Value.withFields (v : Value) (fields : Fields) : Value × List Edit :=
  match v with
  | .map (some m) _ =>
    let fields := Value.tieFields m fields
    (.map (some m) fields, [⟨m, fields⟩])
  | _ => (.record fields, [])

end StepLoom
