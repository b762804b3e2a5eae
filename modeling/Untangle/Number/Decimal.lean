import Untangle.Text.CharClass

/-!
# Reading decimal numerals

A numeral is a run of digits with an optional point and an optional exponent, and at least one
digit outside the exponent. Its value is rounded to the nearest double.
-/

namespace Untangle
namespace Number

/-- `digits · 10 ^ exponent`. -/
structure Decimal where
  digits : List Char
  exponent : Int
  deriving Repr, DecidableEq

/-- The value of a run of decimal digits. -/
def digitsValue (digits : List Char) : Nat :=
  digits.foldl (fun value c => 10 * value + (c.toNat - '0'.toNat)) 0

namespace Decimal

/-- Beyond these bounds on the leading digit's place every double is infinite or zero. -/
def toFloat (d : Decimal) : Float :=
  let significant := d.digits.dropWhile (· == '0')
  let place := (significant.length : Int) + d.exponent
  if significant = [] then 0
  else if 400 < place then 1 / 0
  else if place < -400 then 0
  else Float.ofScientific (digitsValue significant) (decide (d.exponent < 0)) d.exponent.natAbs

/-- An exponent part, or nothing at the end of the text. -/
def readExponent? : List Char → Option Int
  | [] => some 0
  | e :: rest =>
      if e = 'e' ∨ e = 'E' then
        let (negative, digits) :=
          match rest with
          | '-' :: digits => (true, digits)
          | '+' :: digits => (false, digits)
          | digits => (false, digits)
        if digits ≠ [] ∧ digits.all Char.isDigit then
          let value : Int := digitsValue digits
          some (if negative then -value else value)
        else none
      else none

/-- A numeral without a sign. -/
def read? (cs : List Char) : Option Decimal :=
  let whole := cs.takeWhile Char.isDigit
  let (fraction, rest) :=
    match cs.dropWhile Char.isDigit with
    | '.' :: rest => (rest.takeWhile Char.isDigit, rest.dropWhile Char.isDigit)
    | rest => ([], rest)
  if whole = [] ∧ fraction = [] then none
  else
    (readExponent? rest).map fun exponent =>
      { digits := whole ++ fraction, exponent := exponent - fraction.length }

end Decimal

/-- The value of an unsigned numeral. -/
def ofDecimal? (cs : List Char) : Option Float :=
  (Decimal.read? cs).map Decimal.toFloat

/-- The value of a numeral that a sign may precede. -/
def ofSignedDecimal? : List Char → Option Float
  | '-' :: rest => (ofDecimal? rest).map (- ·)
  | '+' :: rest => ofDecimal? rest
  | cs => ofDecimal? cs

/-- A run of digits in a radix, accumulated in doubles from the left. -/
def radixValue (radix : Nat) (digits : List Nat) : Float :=
  digits.foldl (fun value digit => value * Float.ofNat radix + Float.ofNat digit) 0

end Number
end Untangle
