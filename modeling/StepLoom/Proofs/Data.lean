import StepLoom.Proofs.Once
import StepLoom.Proofs.Sharing.Unshare

/-!
# Documents of data

Most documents hold nothing but plain data: nulls, booleans, integers, finite floats, texts, and
lists and mappings of these, where each mapping holds each key once. They have neither parts that
stand inside themselves nor dates, bytes, pairs and sets.
-/

namespace StepLoom

def Binary64.isFinite (x : Binary64) : Bool :=
  match x.parts with
  | .finite .. => true
  | _ => false

/-- A null, a boolean, an integer, a finite float or a text. -/
def Scalar.isData : Scalar → Bool
  | .null | .bool _ | .int _ | .str _ => true
  | .float x => x.isFinite
  | _ => false

namespace Value

mutual

/-- The value is plain data. -/
def isData : Value → Bool
  | .scalar s => s.isData
  | .list items => itemsAreData items
  | .map _ fields => decide (Fields.Once fields) && fieldsAreData fields
  | .pair .. | .set _ | .ring .. | .again _ => false

def itemsAreData : List Value → Bool
  | [] => true
  | v :: rest => v.isData && itemsAreData rest

def fieldsAreData : List (Scalar × Value) → Bool
  | [] => true
  | (k, v) :: rest => k.isData && v.isData && fieldsAreData rest

end

end Value

end StepLoom
