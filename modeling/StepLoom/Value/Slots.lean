import StepLoom.Value

/-!
# The order of a set

A set of numbers lists its members by the slots that they stand in. The number of slots is a power
of two, and at most three fifths of them are taken. A member looks for a free slot along a *trail*,
which depends on its residue, and so on its value, alone. When the slots get crowded, all members
move to more of them.

A set that is filled from fields has room for all of them from the start; a copy grows with each
member. So the two may list the same members in different orders (`Slots.arrange`). A set that has a
member besides numbers keeps the order in which its members were written.
-/

namespace StepLoom

/-! ## Residues -/

/-- Numbers are the same for a slot when they are congruent for this modulus. -/
def residueModulus : Nat := Nat.pow 2 61 - 1

namespace Scalar

/-- The residue of `± n · 2 ^ q`, with the sign of the number. The powers of two repeat after 61
steps. Nothing has the residue `-1`. -/
def residueOf (negative : Bool) (n : Nat) (q : Int) : Int :=
  let r : Int := (n * Nat.pow 2 (q % 61).toNat % residueModulus : Nat)
  let r := if negative then -r else r
  if r = -1 then -2 else r

/-- The residue of an infinite number. -/
def infiniteResidue : Int := 314159

/-- The residue of a number. -/
def residue? : Scalar → Option Int
  | .bool b => some b.toNat
  | .int n => some (residueOf (decide (n < 0)) n.natAbs 0)
  | .float x =>
    match x.parts with
    | .finite negative n q => some (residueOf negative n q)
    | .infinite negative => some (if negative then -infiniteResidue else infiniteResidue)
    | .nan => none
  | _ => none

end Scalar

/-! ## Slots -/

/-- A member of a set with its residue as a word of 64 bits. -/
structure Tenant where
  word : Nat
  member : Scalar

/-- The slots of a set. -/
structure Slots where
  slots : Array (Option Tenant)

namespace Slots

def empty (size : Nat) : Slots := ⟨Array.replicate size none⟩

def size (s : Slots) : Nat := s.slots.size

def isFree (s : Slots) (i : Nat) : Bool := (s.slots.getD i none).isNone

def tenants (s : Slots) : List Tenant := s.slots.toList.filterMap id

/-- So many slots behind a slot are tried before the trail goes on elsewhere. -/
def reach : Nat := 9

/-- The first free slot of a trail that has come to the slot `i`. What is left of the word steers it
on. -/
def freeFrom (s : Slots) : (fuel left i : Nat) → Nat
  | 0, _, i => i
  | fuel + 1, left, i =>
    let near := List.range (if i + reach < s.size then reach + 1 else 1)
    match near.find? fun j => s.isFree (i + j) with
    | some j => i + j
    | none => freeFrom s fuel (left / 32) ((i * 5 + 1 + left / 32) % s.size)

/-- The steps of a trail. A word is used up after thirteen of them, and the steps after that pass
through all slots. -/
def trailLength (s : Slots) : Nat := s.size + 14

/-- Puts a member into the first free slot of its trail. -/
def put (s : Slots) (t : Tenant) : Slots :=
  ⟨s.slots.setIfInBounds (s.freeFrom s.trailLength t.word (t.word % s.size)) (some t)⟩

/-- The least number of slots that is a power of two and more than `n`. -/
def sizeAbove (n : Nat) : Nat := max 8 (Nat.pow 2 (Nat.log2 n + 1))

/-- Whether `n` members are too many for some slots. -/
def isCrowded (n size : Nat) : Bool := decide ((size - 1) * 3 ≤ n * 5)

/-- Puts a member, and then finds more slots if there are too few. -/
def add (s : Slots) (t : Tenant) : Slots :=
  let s := s.put t
  let members := s.tenants
  if isCrowded members.length s.size then members.foldl put (empty (sizeAbove (4 * members.length)))
  else s

/-- A member with its word; a negative residue is counted from the end of the words. -/
def tenant? (member : Scalar) : Option Tenant := do
  return ⟨((← member.residue?) % (Nat.pow 2 64 : Nat)).toNat, member⟩

/-- Members in the order of their slots, if all are numbers; there are `size` slots at first. -/
def arrange (size : Nat) (members : List Scalar) : List Scalar :=
  match members.mapM tenant? with
  | some tenants => (tenants.foldl add (empty size)).tenants.map (·.member)
  | none => members

/-- The members of a set that is filled from fields. -/
def ofFields (members : List Scalar) : List Scalar :=
  let n := members.length
  arrange (if isCrowded n 8 then sizeAbove (2 * n) else 8) members

/-- The members of a copied set. -/
def ofCopy (members : List Scalar) : List Scalar := arrange 8 members

end Slots

/-! ## Copies -/

namespace Value

mutual

/-- A copy of a value, in which sets are filled anew. -/
def copy : Value → Value
  | .scalar s => .scalar s
  | .list items => .list (copyItems items)
  | .pair a b => .pair a.copy b.copy
  | .set members => .set (Slots.ofCopy members)
  | .map m fields => .map m (copyFields fields)
  | .ring m items => .ring m (copyItems items)
  | .again m => .again m

def copyItems : List Value → List Value
  | [] => []
  | v :: rest => v.copy :: copyItems rest

def copyFields : List (Scalar × Value) → List (Scalar × Value)
  | [] => []
  | (k, v) :: rest => (k, v.copy) :: copyFields rest

end

end Value

end StepLoom
