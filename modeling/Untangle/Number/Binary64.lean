/-!
# Doubles as integers times powers of two

Every finite double is an integer significand times a power of two. Digits, remainders and
conversions to words are computed exactly on that form.
-/

namespace Untangle
namespace Number

structure Binary64 where
  negative : Bool
  significand : Nat
  exponent : Int
  deriving Repr, DecidableEq, Inhabited

namespace Binary64

/-- The leading bit of a significand that is not stored. -/
def hiddenBit : Nat :=
  1 <<< 52

/-- The form of a finite double; infinities and NaN have none. -/
def ofFloat? (x : Float) : Option Binary64 :=
  let bits := x.toBits.toNat
  let negative := bits >>> 63 == 1
  let biased : Nat := (bits >>> 52) % 2048
  let fraction : Nat := bits % hiddenBit
  if biased = 2047 then none
  else if biased = 0 then some ⟨negative, fraction, -1074⟩
  else some ⟨negative, hiddenBit + fraction, (biased : Int) - 1075⟩

/-- The nearest double, exact when the value is representable. -/
def toFloat (b : Binary64) : Float :=
  let magnitude :=
    if 0 ≤ b.exponent then Float.ofScientific (b.significand <<< b.exponent.toNat) false 0
    else
      let places := (-b.exponent).toNat
      Float.ofScientific (b.significand * Nat.pow 5 places) true places
  if b.negative then -magnitude else magnitude

/-- The integer part, rounded towards zero. -/
def truncate (b : Binary64) : Int :=
  let magnitude :=
    if 0 ≤ b.exponent then b.significand <<< b.exponent.toNat
    else b.significand >>> (-b.exponent).toNat
  if b.negative then -(magnitude : Int) else magnitude

def isInteger (b : Binary64) : Bool :=
  decide (0 ≤ b.exponent) || b.significand % (1 <<< (-b.exponent).toNat) == 0

/-- The remainder of the magnitudes on the finer of the two scales, with the dividend's sign. -/
def remainder (a b : Binary64) : Binary64 :=
  let scale := min a.exponent b.exponent
  let align := fun (x : Binary64) => x.significand <<< (x.exponent - scale).toNat
  ⟨a.negative, align a % align b, scale⟩

end Binary64

/-!
## Doubles
-/

def isNegative (x : Float) : Bool :=
  x.toBits.toNat >>> 63 == 1

/-- Zero with the sign bit set, which equals zero but prints differently. -/
def isNegativeZero (x : Float) : Bool :=
  x == 0 && isNegative x

/-- The remainder of a division rounded towards zero. It is exact, and its sign is that of the
dividend. -/
def remainder (x y : Float) : Float :=
  match Binary64.ofFloat? x, Binary64.ofFloat? y with
  | some a, some b =>
      if b.significand = 0 then 0 / 0 else (a.remainder b).toFloat
  | some _, none => if y.isNaN then y else x
  | none, _ => 0 / 0

/-- Exponentiation, undefined for an undefined exponent and for a base of magnitude one under an
infinite exponent. -/
def power (base exponent : Float) : Float :=
  if exponent.isNaN || (base.abs == 1 && exponent.isInf) then 0 / 0
  else base.pow exponent

/-!
## Words
-/

/-- The integer part modulo `2 ^ 32`; zero for values that are not finite. -/
def toUInt32 (x : Float) : UInt32 :=
  match Binary64.ofFloat? x with
  | some b => UInt32.ofNat (b.truncate % UInt32.size).toNat
  | none => 0

/-- The same residue read as a signed word. -/
def toInt32 (x : Float) : Int32 :=
  (toUInt32 x).toInt32

def ofUInt32 (w : UInt32) : Float :=
  Float.ofNat w.toNat

def ofInt32 (w : Int32) : Float :=
  Float.ofInt w.toInt

end Number
end Untangle
