import Untangle.Evaluation.Value
import Untangle.Number.Binary64
import Untangle.Token.Kind

/-!
# Operators on primitive values

Operators that cannot fail and run no code. `in`, `instanceof`, `delete` and updates need more
than their operands' values and have no answer here.
-/

namespace Untangle
namespace Value

/-!
## Equality and order
-/

/-- Equality of values of one type; a NaN differs from itself. -/
def strictEquals : Value → Value → Bool
  | undefined, undefined => true
  | null, null => true
  | boolean a, boolean b => a == b
  | number x, number y => x == y
  | string s, string t => s == t
  | _, _ => false

/-- Equality up to conversion: `null` and `undefined` are alike and differ from all else, and
other values of two types are compared as numbers. -/
def looseEquals (a b : Value) : Bool :=
  if a.isNullish || b.isNullish then a.isNullish && b.isNullish
  else if a.typeName = b.typeName then strictEquals a b
  else a.toNumber == b.toNumber

/-- The order of two doubles; NaN is not comparable. -/
def compareNumbers (x y : Float) : Option Ordering :=
  if x < y then some .lt
  else if y < x then some .gt
  else if x == y then some .eq
  else none

/-- Two strings are ordered by code units, any other values as numbers. -/
def compare (a b : Value) : Option Ordering :=
  match a, b with
  | string s, string t => some (Text.compareUnits (Text.units s) (Text.units t))
  | _, _ => compareNumbers a.toNumber b.toNumber

/-!
## Unary operators
-/

def applyUnary (operator : TokenKind) (v : Value) : Option Value :=
  match operator with
  | .mark .not => some (boolean !v.isTruthy)
  | .mark .minus => some (number (-v.toNumber))
  | .mark .plus => some (number v.toNumber)
  | .mark .complement => some (ofWord (~~~ v.toWord))
  | .word .«typeof» => some (string v.typeName)
  | .word .void => some undefined
  | _ => none

/-!
## Binary operators
-/

/-- `+` joins texts as soon as one operand is a string. -/
def add (a b : Value) : Value :=
  match a, b with
  | string s, _ => string (s ++ b.toText)
  | _, string t => string (a.toText ++ t)
  | _, _ => number (a.toNumber + b.toNumber)

/-- Shifts use the last five bits of the count. -/
def shiftCount (v : Value) : UInt32 :=
  Number.toUInt32 v.toNumber &&& 31

def shiftLeft (a b : Value) : Value :=
  ofWord (Number.toUInt32 a.toNumber <<< b.shiftCount).toInt32

def shiftRight (a b : Value) : Value :=
  ofWord (a.toWord >>> b.shiftCount.toInt32)

def shiftRightUnsigned (a b : Value) : Value :=
  number (Number.ofUInt32 (Number.toUInt32 a.toNumber >>> b.shiftCount))

def arithmetic (op : Float → Float → Float) (a b : Value) : Value :=
  number (op a.toNumber b.toNumber)

def bitwise (op : Int32 → Int32 → Int32) (a b : Value) : Value :=
  ofWord (op a.toWord b.toWord)

/-- A relation of two values that are comparable. -/
def ordered (accept : Ordering → Bool) (a b : Value) : Value :=
  boolean ((compare a b).any accept)

def applyMark (operator : Punctuator) (a b : Value) : Option Value :=
  match operator with
  | .plus => some (add a b)
  | .minus => some (arithmetic (· - ·) a b)
  | .times => some (arithmetic (· * ·) a b)
  | .divide => some (arithmetic (· / ·) a b)
  | .modulo => some (arithmetic Number.remainder a b)
  | .power => some (arithmetic Number.power a b)
  | .bitAnd => some (bitwise (· &&& ·) a b)
  | .bitOr => some (bitwise (· ||| ·) a b)
  | .bitXor => some (bitwise (· ^^^ ·) a b)
  | .shiftLeft => some (shiftLeft a b)
  | .shiftRight => some (shiftRight a b)
  | .shiftRightUnsigned => some (shiftRightUnsigned a b)
  | .strictEqual => some (boolean (strictEquals a b))
  | .strictNotEqual => some (boolean !strictEquals a b)
  | .equal => some (boolean (looseEquals a b))
  | .notEqual => some (boolean !looseEquals a b)
  | .less => some (ordered Ordering.isLT a b)
  | .greater => some (ordered Ordering.isGT a b)
  | .lessEqual => some (ordered Ordering.isLE a b)
  | .greaterEqual => some (ordered Ordering.isGE a b)
  | _ => none

def applyBinary (operator : TokenKind) (a b : Value) : Option Value :=
  match operator with
  | .mark p => applyMark p a b
  | _ => none

/-- A logical operator that answers with its left operand and leaves the right one alone. -/
def shortCircuits? (operator : TokenKind) (left : Value) : Option Bool :=
  match operator with
  | .mark .and => some !left.isTruthy
  | .mark .or => some left.isTruthy
  | .mark .coalesce => some !left.isNullish
  | _ => none

end Value
end Untangle
