import StepLoom.Number.Binary64

/-!
# The shortest decimal text of a double

`Binary64.shortest` finds the fewest decimal digits that read back as the same double and, among
those, the ones nearest to it. For each length from 1 to 17 it tests the two neighbours of the exact
value on the decimal grid of that length; the first grid with a neighbour inside the rounding
interval wins. `Binary64.text` lays the digits out: positionally for magnitudes from `10 ^ -4` up to
`10 ^ 16`, with a signed two-digit exponent outside.
-/

namespace StepLoom

namespace Binary64

/-- The decimal number `0.d₁d₂… · 10 ^ point`. -/
structure Digits where
  digits : List Char
  point : Int
deriving DecidableEq, Repr

/-- How many times a numerator below the denominator has to be multiplied by ten to reach it,
counted down from zero. -/
def leadingZeros : Nat → Nat → Nat → Int
  | 0, _, _ => 0
  | fuel + 1, num, den => if den ≤ num * 10 then 0 else leadingZeros fuel (num * 10) den - 1

/-- The number of digits before the decimal point of `num / den`; it is zero or less for a number
below one. -/
def pointOf (num den : Nat) : Int :=
  if den ≤ num then (Nat.toDigits 10 (num / den)).length else leadingZeros 400 num den

/-- The interval of numbers that round to `value / den`; its ends belong to it iff `closed`. -/
structure Interval where
  low : Nat
  value : Nat
  high : Nat
  den : Nat
  closed : Bool

/-- The rounding interval of `m · 2 ^ q`, in quarters of its last place. Below a power of two the
doubles lie twice as dense. -/
def Interval.of (m : Nat) (q : Int) : Interval :=
  let below := if m = hiddenBit ∧ minExponent < q then 1 else 2
  let scale := if 2 ≤ q then Nat.pow 2 (q - 2).toNat else 1
  { low := (4 * m - below) * scale
    value := 4 * m * scale
    high := (4 * m + 2) * scale
    den := if 2 ≤ q then 1 else Nat.pow 2 (2 - q).toNat
    closed := m % 2 = 0 }

def Interval.contains (i : Interval) (num : Nat) : Bool :=
  if i.closed then decide (i.low ≤ num ∧ num ≤ i.high) else decide (i.low < num ∧ num < i.high)

/-- The grid point with `n` digits nearest to the value, if one lies inside the interval. -/
def Interval.onGrid (i : Interval) (point : Int) (n : Nat) : Option Nat :=
  let s : Int := point - n
  let up := if s < 0 then Nat.pow 10 (-s).toNat else 1
  let unit := (if 0 ≤ s then Nat.pow 10 s.toNat else 1) * i.den
  let i : Interval := { i with low := i.low * up, value := i.value * up, high := i.high * up }
  let d := i.value / unit
  let inside := i.contains (d * unit)
  let insideNext := i.contains ((d + 1) * unit)
  match inside, insideNext with
  | false, false => none
  | true, false => some d
  | false, true => some (d + 1)
  | true, true =>
    let gap := i.value - d * unit
    let gapNext := (d + 1) * unit - i.value
    if gap < gapNext then some d
    else if gapNext < gap then some (d + 1)
    else some (d + d % 2)

/-- The first grid, from `n` digits on, with a point inside the interval. -/
def Interval.search (i : Interval) (point : Int) : Nat → Nat → Nat × Nat
  | 0, n => (i.value / i.den, n)
  | fuel + 1, n =>
    match i.onGrid point n with
    | some d => (d, n)
    | none => i.search point fuel (n + 1)

/-- The shortest digits of the positive number `m · 2 ^ q`. -/
def shortest (m : Nat) (q : Int) : Digits :=
  let i := Interval.of m q
  let point := pointOf i.value i.den
  let (d, n) := i.search point 18 1
  let ds := Nat.toDigits 10 d
  { digits := (ds.reverse.dropWhile (· = '0')).reverse
    point := point + (ds.length - n) }

/-- At least two digits, as an exponent is written. -/
def exponentDigits (n : Nat) : List Char :=
  let ds := Nat.toDigits 10 n
  if ds.length < 2 then '0' :: ds else ds

/-- Positional from `10 ^ -4` up to `10 ^ 16`, always with a digit after the point; otherwise one
digit, a point if more follow, and the exponent. -/
def Digits.layout (d : Digits) : List Char :=
  let n : Int := d.digits.length
  if -4 < d.point ∧ d.point ≤ 16 then
    if d.point ≤ 0 then
      '0' :: '.' :: (List.replicate (-d.point).toNat '0' ++ d.digits)
    else if n ≤ d.point then
      d.digits ++ List.replicate (d.point - n).toNat '0' ++ ['.', '0']
    else d.digits.take d.point.toNat ++ '.' :: d.digits.drop d.point.toNat
  else
    let exponent := d.point - 1
    let mantissa := match d.digits with
      | [] => ['0']
      | [c] => [c]
      | c :: rest => c :: '.' :: rest
    mantissa ++ 'e' :: (if exponent < 0 then '-' else '+') :: exponentDigits exponent.natAbs

/-- The shortest text that reads back as the number. -/
def text (x : Binary64) : String :=
  match x.parts with
  | .nan => "nan"
  | .infinite negative => if negative then "-inf" else "inf"
  | .finite negative m q =>
    let body := if m = 0 then ['0', '.', '0'] else (shortest m q).layout
    String.ofList (if negative then '-' :: body else body)

end Binary64

end StepLoom
