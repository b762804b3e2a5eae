import Untangle.Number.Binary64

/-!
# The text of a number

Numbers print with their shortest digits, positionally from `10 ^ -6` up to `10 ^ 21` and with
an exponent outside that range.
-/

namespace Untangle
namespace Number

/-!
## Shortest digits

A double stands for every real number that rounds to it, an interval whose ends belong to it
exactly when the significand is even. The shortest digits are those of the coarsest decimal grid
that has a point in the interval. Of two such points the nearer to the double is taken, and the
upper one when both are equally near.
-/

/-- The interval of a positive double: `value / unit` with its ends `low / unit` and
`high / unit`. -/
structure Interval where
  low : Nat
  value : Nat
  high : Nat
  unit : Nat
  closed : Bool
  deriving Repr

namespace Interval

/-- Half the gap below a power of two is half as wide as the gap above it, unless the exponent
is already the least one. -/
def ofBinary64 (b : Binary64) : Interval :=
  let raise := 1 <<< (b.exponent - 2).toNat
  let m := 4 * b.significand
  let below := if b.significand = Binary64.hiddenBit ∧ b.exponent ≠ -1074 then 1 else 2
  { low := (m - below) * raise
    value := m * raise
    high := (m + 2) * raise
    unit := 1 <<< (2 - b.exponent).toNat
    closed := b.significand % 2 == 0 }

/-- The least `p` with `value / unit < 10 ^ p`. -/
def magnitude (i : Interval) : Int :=
  if i.unit ≤ i.value then (Nat.toDigits 10 (i.value / i.unit)).length
  else 1 - ((Nat.toDigits 10 ((i.unit - 1) / i.value)).length : Int)

/-- Whether `point / down` times `1 / up` lies in the interval. -/
def holds (i : Interval) (up down point : Nat) : Bool :=
  let x := point * i.unit * down
  if i.closed then i.low * up ≤ x && x ≤ i.high * up
  else i.low * up < x && x < i.high * up

/-- The point of the grid with `n` digits that represents the value, if one lies in the
interval. -/
def gridPoint? (i : Interval) (n : Nat) : Option Nat :=
  let p := i.magnitude
  let up := Nat.pow 10 ((n : Int) - p).toNat
  let down := Nat.pow 10 (p - n).toNat
  let exact := i.value * up
  let step := i.unit * down
  let floor := exact / step
  match i.holds up down floor, i.holds up down (floor + 1) with
  | true, true => some (if 2 * (exact % step) < step then floor else floor + 1)
  | true, false => some floor
  | false, true => some (floor + 1)
  | false, false => none

end Interval

/-- Decimal digits with the position of the point: `0.d₁d₂… · 10 ^ point`. -/
structure Digits where
  digits : List Char
  point : Int
  deriving Repr, DecidableEq, Inhabited

namespace Digits

/-- The digits of `coefficient · 10 ^ exponent` without trailing zeros. -/
def ofScaled (coefficient : Nat) (exponent : Int) : Digits :=
  let digits := Nat.toDigits 10 coefficient
  { digits := (digits.reverse.dropWhile (· == '0')).reverse
    point := digits.length + exponent }

/-- The shortest digits of a positive double; seventeen always suffice. -/
def shortest (b : Binary64) : Digits :=
  let i := Interval.ofBinary64 b
  let found := (List.range 17).findSome? fun k =>
    (i.gridPoint? (k + 1)).map fun point => (point, k + 1)
  let (point, count) := found.getD (0, 1)
  ofScaled point (i.magnitude - count)

end Digits

/-!
## Layout of the digits
-/

namespace Digits

/-- Digits with the point in its place and no exponent. -/
def positional (d : Digits) : List Char :=
  let count : Int := d.digits.length
  if d.point ≤ 0 then
    '0' :: '.' :: List.replicate (-d.point).toNat '0' ++ d.digits
  else if count ≤ d.point then
    d.digits ++ List.replicate (d.point - count).toNat '0'
  else
    d.digits.take d.point.toNat ++ '.' :: d.digits.drop d.point.toNat

/-- One digit before the point and a signed exponent. -/
def exponential (d : Digits) : List Char :=
  let exponent := d.point - 1
  let sign := if exponent < 0 then '-' else '+'
  let tail := 'e' :: sign :: Nat.toDigits 10 exponent.natAbs
  match d.digits with
  | [] => tail
  | [first] => first :: tail
  | first :: rest => first :: '.' :: rest ++ tail

/-- The point lies within the positional range: `10 ^ -6` has point `-5` and `10 ^ 21` has
point `22`. -/
def isPositional (d : Digits) : Bool :=
  -6 < d.point && d.point ≤ 21

end Digits

/-- Both zeros print alike, and NaN prints without a sign. -/
def display (x : Float) : String :=
  match Binary64.ofFloat? x with
  | none =>
      if x.isNaN then "NaN"
      else if isNegative x then "-Infinity"
      else "Infinity"
  | some b =>
      if b.significand = 0 then "0"
      else
        let d := Digits.shortest b
        let body := if d.isPositional then d.positional else d.exponential
        String.ofList (if b.negative then '-' :: body else body)

end Number

end Untangle
