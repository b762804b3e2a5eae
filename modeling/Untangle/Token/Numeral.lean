import Untangle.Number.Decimal
import Untangle.Token.Lexeme

/-!
# Numeric literals

Decimal literals, literals in radix sixteen, eight and two, integers of arbitrary size, and the
older octal form that starts with a zero.
-/

namespace Untangle

/-!
## Digit runs
-/

/-- A run of decimal digits in which an underscore may stand before a digit; the digits without
the underscores, and the cursor behind the run. -/
def decimalRunFrom (reversed : List Char) : List Char → Nat → List Char × Cursor
  | [], offset => (reversed.reverse, ⟨[], offset⟩)
  | ch :: rest, offset =>
      if ch.isDigit then decimalRunFrom (ch :: reversed) rest (offset + 1)
      else if ch = '_' ∧ rest.head?.any Char.isDigit then
        decimalRunFrom reversed rest (offset + 1)
      else (reversed.reverse, ⟨ch :: rest, offset⟩)

def decimalRun (c : Cursor) : List Char × Cursor :=
  decimalRunFrom [] c.rest c.offset

/-- A run of digits in a radix, in which an underscore may stand after a digit. -/
def radixRunFrom (radix : Nat) (reversed : List Nat) : List Char → Nat → List Nat × Cursor
  | [], offset => (reversed.reverse, ⟨[], offset⟩)
  | ch :: rest, offset =>
      if ch = '_' ∧ reversed ≠ [] then radixRunFrom radix reversed rest (offset + 1)
      else
        match Text.digitValue? radix ch with
        | some digit => radixRunFrom radix (digit :: reversed) rest (offset + 1)
        | none => (reversed.reverse, ⟨ch :: rest, offset⟩)

def radixRun (radix : Nat) (c : Cursor) : List Nat × Cursor :=
  radixRunFrom radix [] c.rest c.offset

/-!
## Values
-/

/-- The value of a literal, whether it has the form of an integer, and the cursor behind it;
or the offset at which a digit is missing. -/
inductive NumeralReading
  | value (number : Float) (integer : Bool) (next : Cursor)
  | digitExpected (next : Cursor)

/-- The radix that the letter after a leading zero announces. -/
def radixOf? : List Char → Option Nat
  | '0' :: 'x' :: _ | '0' :: 'X' :: _ => some 16
  | '0' :: 'o' :: _ | '0' :: 'O' :: _ => some 8
  | '0' :: 'b' :: _ | '0' :: 'B' :: _ => some 2
  | _ => none

def readRadixNumeral (radix : Nat) (c : Cursor) : NumeralReading :=
  let (digits, next) := radixRun radix (c.skip 2)
  if digits.isEmpty then .digitExpected next
  else .value (Number.radixValue radix digits) true next

/-- Digits after a leading zero are octal unless an eight or a nine is among them. -/
def readLeadingZero (c : Cursor) : NumeralReading :=
  let next := c.dropWhile Char.isDigit
  let digits := c.charsTo next
  let number :=
    if digits.all Text.isOctalDigit then
      Number.radixValue 8 (digits.filterMap (Text.digitValue? 8))
    else
      Number.Decimal.toFloat ⟨digits, 0⟩
  .value number false next

/-- The sign and digits of an exponent, read from just after its letter. -/
def readExponent? (c : Cursor) : Option (Int × Cursor) :=
  let negative := c.head? == some '-'
  let digitsAt := if negative || c.head? == some '+' then c.advance else c
  if digitsAt.head?.any Char.isDigit then
    let (digits, next) := decimalRun digitsAt
    let value : Int := Number.digitsValue digits
    some (if negative then -value else value, next)
  else none

/-- A missing exponent digit is reported at the exponent's letter. -/
def readDecimalNumeral (c : Cursor) : NumeralReading :=
  let (whole, afterWhole) := decimalRun c
  let hasPoint := afterWhole.head? == some '.'
  let (fraction, afterFraction) :=
    if hasPoint then decimalRun afterWhole.advance else ([], afterWhole)
  let scale : Int := -(fraction.length : Int)
  if afterFraction.head? = some 'e' ∨ afterFraction.head? = some 'E' then
    match readExponent? afterFraction.advance with
    | some (exponent, next) =>
        .value (Number.Decimal.toFloat ⟨whole ++ fraction, scale + exponent⟩) false next
    | none => .digitExpected afterFraction
  else
    .value (Number.Decimal.toFloat ⟨whole ++ fraction, scale⟩) (!hasPoint) afterFraction

def readNumeral (c : Cursor) : NumeralReading :=
  match radixOf? c.rest with
  | some radix => readRadixNumeral radix c
  | none =>
      if c.head? = some '0' ∧ c.advance.head?.any Char.isDigit then readLeadingZero c
      else readDecimalNumeral c

/-!
## Literals
-/

/-- Neither a name nor a digit may directly follow a numeric literal. -/
def readNumber (c : Cursor) : Reading :=
  match readNumeral c with
  | .digitExpected next => .fail .digitExpected next.offset next
  | .value number integer behind =>
      let isBig := integer && behind.head? == some 'n'
      let next := if isBig then behind.advance else behind
      if next.head?.any fun ch => Text.isIdentifierStart ch || ch.isDigit then
        .fail .nameAfterNumber next.offset next
      else
        .ok
          { kind := if isBig then .bigInt else .numeric
            value := c.textTo next
            number := number }
          next

end Untangle
