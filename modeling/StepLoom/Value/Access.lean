import StepLoom.Fault
import StepLoom.Value

/-!
# Reaching into values of any shape

Templates are written by hand, so any value may stand anywhere. These operations say what each of
them does on each kind of value, and which fault arises on the kinds that it is not defined on. An
absent value, null, `false`, zero and everything empty count as *blank*.
-/

namespace StepLoom

namespace Scalar

def isBlank : Scalar → Bool
  | .null => true
  | .bool b => !b
  | .int n => n == 0
  | .float x => x.isZero
  | .str s => s.isEmpty
  | .bytes bs => bs.isEmpty
  | .date _ | .timestamp _ | .pair .. => false

end Scalar

namespace Value

def isBlank : Value → Bool
  | .scalar s => s.isBlank
  | .list items | .ring _ items => items.isEmpty
  | .set members => members.isEmpty
  | .map _ fields => fields.isEmpty
  | .pair .. | .again _ => false

/-- The value, unless it is absent or blank. -/
def given? (v : Option Value) : Option Value := v.filter fun v => !v.isBlank

/-- The value, or an empty mapping for a blank one. -/
def orEmpty (v : Value) : Value := if v.isBlank then record [] else v

/-- The characters of a text, each a text of its own. -/
def characters (s : String) : List Value := s.toList.map fun c => str (String.singleton c)

/-- Members of a list, a pair or a set, keys of a mapping, characters of a string. -/
def members (v : Value) : Except Fault (List Value) :=
  match v.unroll with
  | .list items => .ok items
  | .pair a b => .ok [a, b]
  | .set members => .ok (members.map .ofKey)
  | .map _ fields => .ok (Fields.keys fields)
  | .scalar (.str s) => .ok (characters s)
  | .scalar (.bytes bs) => .ok (bs.map fun b => int b.toNat)
  | _ => .error .illTyped

/-- Members of an optional value, none for an absent or blank one. -/
def membersOrNone (v : Option Value) : Except Fault (List Value) :=
  match given? v with
  | some v => v.members
  | none => .ok []

/-- One or many: nothing for a blank value, a string as the only item, else the members. -/
def oneOrMany (v : Option Value) : Except Fault (List Value) :=
  match given? v with
  | none => .ok []
  | some (.scalar (.str s)) => .ok [.str s]
  | some v => v.members

/-- All fields of a mapping, which nothing else has. -/
def fieldsOf (v : Value) : Except Fault Fields :=
  match v.fields? with
  | some fields => .ok fields
  | none => .error .noMember

/-- The field of a mapping. -/
def field? (key : Scalar) (v : Value) : Except Fault (Option Value) :=
  match v.fields? with
  | some fields => .ok (Fields.get? key fields)
  | none => .error .noMember

/-- Fields of an optional mapping, none for an absent or blank one. -/
def fieldsOrNone (v : Option Value) : Except Fault Fields :=
  match given? v with
  | some v => v.fieldsOf
  | none => .ok []

/-- Taking a field out of a mapping. A list takes positions out and a set any of its members, so a
key does not fit them. -/
def take (key : Scalar) (v : Value) : Except Fault (Option Value × Fields) :=
  match v.unroll with
  | .map _ fields => .ok (Fields.get? key fields, Fields.erase key fields)
  | .list _ | .set _ => .error .illTyped
  | _ => .error .noMember

/-- The field under a key that has to be there. -/
def index (key : Scalar) (v : Value) : Except Fault Value :=
  match v.fields? with
  | some fields =>
    match Fields.get? key fields with
    | some v => .ok v
    | none => .error .missingKey
  | none => .error .illTyped

/-- The fields of a mapping that is copied; only mappings are. -/
def spread (v : Value) : Except Fault Fields :=
  match v.fields? with
  | some fields => .ok fields
  | none => .error .illTyped

/-- The text of a string, which no other value counts as. -/
def string : Value → Except Fault String
  | .scalar (.str s) => .ok s
  | _ => .error .illTyped

/-- The text of a string on which a text operation is called. Bytes have such operations too, and
no text fits them. -/
def stringMember : Value → Except Fault String
  | .scalar (.str s) => .ok s
  | .scalar (.bytes _) => .error .illTyped
  | _ => .error .noMember

/-- Whether `needle` occurs in a text. -/
def occursIn (needle : List Char) : List Char → Bool
  | [] => needle.isEmpty
  | c :: rest => needle.isPrefixOf (c :: rest) || occursIn needle rest

/-- Membership: an item of a list, a key of a mapping, a part of a string. A set is never a member
of a set, and what else is no key cannot be looked for among keys. -/
def contains (container : Value) (v : Value) : Except Fault Bool :=
  match container.unroll with
  | .list items => .ok (items.any (·.equal v))
  | .pair a b => .ok (a.equal v || b.equal v)
  | .set members =>
    match v, v.key? with
    | .set _, _ => .ok false
    | _, some k => .ok (members.any k.sameKey)
    | _, none => .error .illTyped
  | .map _ fields =>
    match v.key? with
    | some k => .ok (Fields.has k fields)
    | none => .error .illTyped
  | .scalar (.str s) => do return occursIn (← v.string).toList s.toList
  | .scalar (.bytes bs) =>
    match v with
    | .scalar (.int n) =>
      if 0 ≤ n ∧ n < 256 then .ok (bs.any fun b => b.toNat == n.toNat)
      else .error (.invalidData "byte must be in range(0, 256)")
    | .scalar (.bool b) => .ok (bs.any fun c => c.toNat == b.toNat)
    | _ => .error .illTyped
  | _ => .error .illTyped

/-- The item at a position, counted from the end when it is negative. -/
def itemAt (items : List Value) (n : Int) : Except Fault Value :=
  let position := if n < 0 then n + items.length else n
  if position < 0 then .error .outOfRange
  else match items[position.toNat]? with
    | some v => .ok v
    | none => .error .outOfRange

/-- The items that have positions. -/
def positioned? (v : Value) : Option (List Value) :=
  match v.unroll with
  | .list items => some items
  | .pair a b => some [a, b]
  | .scalar (.str s) => some (characters s)
  | .scalar (.bytes bs) => some (bs.map fun b => int b.toNat)
  | _ => none

/-- What a container holds under a key of any kind: a field of a mapping, or the item at a
position. -/
def lookUp (container : Value) (key : Value) : Except Fault Value :=
  match container.fields?, container.positioned?, key with
  | some fields, _, _ =>
    match key.key? with
    | none => .error .illTyped
    | some k =>
      match Fields.get? k fields with
      | some v => .ok v
      | none => .error .missingKey
  | none, some items, .scalar (.int n) => itemAt items n
  | none, some items, .scalar (.bool b) => itemAt items b.toNat
  | _, _, _ => .error .illTyped

/-- The strings in a list of values. -/
def strings : List Value → Except Fault (List String)
  | [] => .ok []
  | v :: rest => do return (← v.string) :: (← strings rest)

/-- A list of pairs read as fields: each element has two members, the first of them a key. -/
def pairsFrom : Nat → List Value → Except Fault (List (Scalar × Value))
  | _, [] => .ok []
  | i, v :: rest => do
    match ← v.members with
    | [key, x] =>
      match key.key? with
      | some k => return (k, x) :: (← pairsFrom (i + 1) rest)
      | none => throw .illTyped
    | parts => throw (.notAPair i parts.length)

/-- A value as a collection of fields: those of a mapping, or the pairs in a list. -/
def asFields (v : Value) : Except Fault Fields :=
  match v.fields? with
  | some fields => .ok fields
  | none => do return Fields.ofPairs (← pairsFrom 0 (← v.members))

end Value

end StepLoom
