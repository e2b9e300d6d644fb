/-!
# Double-precision numbers, by their bits

A number is its 64 bits. `Binary64.parts` reads them as an exact value `± m · 2 ^ q`, and
`Binary64.nearest` goes back: it rounds a positive quotient to the nearest double, a tie going to
the even significand. Everything is exact arithmetic on natural numbers, so sums, products and
decimal readings round once, at the end.
-/

namespace StepLoom

/-- A double-precision number, given by its bits. -/
structure Binary64 where
  bits : UInt64
deriving DecidableEq, Repr, Inhabited

/-- What a bit pattern stands for. A finite number is `± significand · 2 ^ exponent`. -/
inductive Binary64.Parts where
  | nan
  | infinite (negative : Bool)
  | finite (negative : Bool) (significand : Nat) (exponent : Int)
deriving DecidableEq, Repr

namespace Binary64

def signBit : Nat := Nat.pow 2 63
def hiddenBit : Nat := Nat.pow 2 52

/-- The least exponent, that of the subnormal numbers. -/
def minExponent : Int := -1074

def parts (x : Binary64) : Parts :=
  let n := x.bits.toNat
  let negative := decide (signBit ≤ n)
  let biased := n / hiddenBit % 2048
  let fraction := n % hiddenBit
  if biased = 2047 then
    if fraction = 0 then .infinite negative else .nan
  else if biased = 0 then .finite negative fraction minExponent
  else .finite negative (fraction + hiddenBit) (biased - 1075)

def ofNatBits (negative : Bool) (n : Nat) : Binary64 :=
  ⟨UInt64.ofNat (if negative then n + signBit else n)⟩

def infinity (negative : Bool) : Binary64 := ofNatBits negative (2047 * hiddenBit)

/-- What is not a number. The bits that no number needs hold a name, by which two of them can be
told apart or recognised as the same; the name zero is no name. -/
def nanNamed (name : Nat) : Binary64 :=
  ofNatBits false (2047 * hiddenBit + hiddenBit / 2 + name % (hiddenBit / 2))

def nan : Binary64 := nanNamed 0

def zero (negative : Bool) : Binary64 := ofNatBits negative 0

/-- The quotient rounded to a natural number, a tie going to the even one. -/
def roundDiv (num den : Nat) : Nat :=
  let q := num / den
  let r := num % den
  if 2 * r < den then q else if den < 2 * r then q + 1 else q + q % 2

/-- The exponent at which `num / den` has a significand of 53 bits, or the least exponent. -/
def exponentFor (num den : Nat) : Int :=
  let guess : Int := (Nat.log2 num : Int) - (Nat.log2 den : Int) - 52
  let fits (q : Int) : Bool :=
    if 0 ≤ q then decide (den * Nat.pow 2 (52 + q.toNat) ≤ num)
    else decide (den * Nat.pow 2 52 ≤ num * Nat.pow 2 (-q).toNat)
  max minExponent (if fits guess then guess else guess - 1)

/-- The double nearest to `± num / den`. -/
def nearest (negative : Bool) (num den : Nat) : Binary64 :=
  if num = 0 ∨ den = 0 then zero negative else
  let q := exponentFor num den
  let m :=
    if 0 ≤ q then roundDiv num (den * Nat.pow 2 q.toNat)
    else roundDiv (num * Nat.pow 2 (-q).toNat) den
  let carried := decide (2 * hiddenBit ≤ m)
  let m := if carried then m / 2 else m
  let q := if carried then q + 1 else q
  if m < hiddenBit then ofNatBits negative m
  else
    let biased := (q + 1075).toNat
    if 2047 ≤ biased then infinity negative
    else ofNatBits negative (biased * hiddenBit + (m - hiddenBit))

/-- The double nearest to `± digits · 10 ^ exponent`. Far outside the range the power is not
computed: the answer is infinite or zero. -/
def ofDecimal (negative : Bool) (digits : Nat) (exponent : Int) : Binary64 :=
  let size : Int := (Nat.toDigits 10 digits).length
  if digits = 0 ∨ size + exponent < -400 then zero negative
  else if 400 < size + exponent then infinity negative
  else if 0 ≤ exponent then nearest negative (digits * Nat.pow 10 exponent.toNat) 1
  else nearest negative digits (Nat.pow 10 (-exponent).toNat)

/-- A finite number as a signed numerator over a power of two. -/
def ratio? (x : Binary64) : Option (Int × Nat) :=
  match x.parts with
  | .finite negative m q =>
    let n : Int := if 0 ≤ q then m * Nat.pow 2 q.toNat else m
    some (if negative then -n else n, if 0 ≤ q then 1 else Nat.pow 2 (-q).toNat)
  | _ => none

def isNegative (x : Binary64) : Bool := decide (signBit ≤ x.bits.toNat)

def isZero (x : Binary64) : Bool := decide (x.bits.toNat % signBit = 0)

def neg (x : Binary64) : Binary64 :=
  ofNatBits (!x.isNegative) (x.bits.toNat % signBit)

/-- The integer that the number equals, if it equals one. -/
def toInt? (x : Binary64) : Option Int := do
  let (n, d) ← x.ratio?
  if n % d = 0 then some (n / d) else none

def ofInt (n : Int) : Binary64 := nearest (decide (n < 0)) n.natAbs 1

/-- A rounded signed quotient; `negativeZero` gives the sign of a zero result. -/
def ofRatio (n : Int) (d : Nat) (negativeZero : Bool) : Binary64 :=
  if n = 0 then zero negativeZero else nearest (decide (n < 0)) n.natAbs d

/-- The rounded product. An infinite number times zero is not a number. -/
def mul (x y : Binary64) : Binary64 :=
  let negative := x.isNegative != y.isNegative
  match x.parts, y.parts, x.ratio?, y.ratio? with
  | .nan, _, _, _ | _, .nan, _, _ => nan
  | _, _, some (a, b), some (c, d) => ofRatio (a * c) (b * d) negative
  | _, _, _, _ => if x.isZero || y.isZero then nan else infinity negative

/-- The rounded sum. An infinite number absorbs a finite one. -/
def add (x y : Binary64) : Binary64 :=
  match x.parts, y.parts, x.ratio?, y.ratio? with
  | .nan, _, _, _ | _, .nan, _, _ => nan
  | _, _, some (a, b), some (c, d) =>
    ofRatio (a * d + c * b) (b * d) (x.isNegative && y.isNegative)
  | _, _, some _, none => y
  | _, _, none, some _ => x
  | _, _, none, none => if x = y then x else nan

def isNaN (x : Binary64) : Bool := x.parts == .nan

def isInfinite (x : Binary64) : Bool :=
  match x.parts with
  | .infinite _ => true
  | _ => false

end Binary64

end StepLoom
