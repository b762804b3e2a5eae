import Untangle.Number.Decimal
import Untangle.Number.Display
import Untangle.Text.Units

/-!
# Primitive values

The values that an expression may have without running any code, and their conversions to
truth values, numbers and text.
-/

namespace Untangle

inductive Value
  | undefined
  | null
  | boolean (b : Bool)
  | number (x : Float)
  | string (s : String)
  deriving Repr, Inhabited

/-!
## Numbers from text
-/

/-- Characters dropped at both ends of a text that is read as a number. -/
def isNumberPadding (c : Char) : Bool :=
  Text.isWhiteSpace c || c == '\ufeff'

/-- The value of the digits after a radix mark; every character must be a digit. -/
def radixNumeral (radix : Nat) (digits : List Char) : Float :=
  match digits with
  | [] => 0 / 0
  | _ => ((digits.mapM (Text.digitValue? radix)).map (Number.radixValue radix)).getD (0 / 0)

def isNumeralChar (c : Char) : Bool :=
  c.isDigit || ['.', 'e', 'E', '+', '-'].contains c

/-- A decimal numeral; texts of any other form are not numbers. -/
def decimalNumeral (cs : List Char) : Float :=
  if cs.all isNumeralChar then (Number.ofSignedDecimal? cs).getD (0 / 0) else 0 / 0

def infiniteNumeral? (cs : List Char) : Option Float :=
  if cs = "Infinity".toList ∨ cs = "+Infinity".toList then some (1 / 0)
  else if cs = "-Infinity".toList then some (-1 / 0)
  else none

/-- The number that a text without padding denotes; NaN if it denotes none. -/
def numeral : List Char → Float
  | [] => 0
  | '0' :: 'x' :: digits | '0' :: 'X' :: digits => radixNumeral 16 digits
  | '0' :: 'o' :: digits | '0' :: 'O' :: digits => radixNumeral 8 digits
  | '0' :: 'b' :: digits | '0' :: 'B' :: digits => radixNumeral 2 digits
  | cs => (infiniteNumeral? cs).getD (decimalNumeral cs)

/-- The number that a text denotes. -/
def stringToNumber (text : String) : Float :=
  numeral (Text.trim isNumberPadding text.toList)

namespace Value

/-!
## Conversions
-/

def isTruthy : Value → Bool
  | undefined => false
  | null => false
  | boolean b => b
  | number x => x != 0 && !x.isNaN
  | string s => !s.isEmpty

def toNumber : Value → Float
  | undefined => 0 / 0
  | null => 0
  | boolean b => if b then 1 else 0
  | number x => x
  | string s => stringToNumber s

def toText : Value → String
  | undefined => "undefined"
  | null => "null"
  | boolean b => if b then "true" else "false"
  | number x => Number.display x
  | string s => s

/-- What `typeof` answers. -/
def typeName : Value → String
  | undefined => "undefined"
  | null => "object"
  | boolean _ => "boolean"
  | number _ => "number"
  | string _ => "string"

def isNullish : Value → Bool
  | undefined | null => true
  | _ => false

def toWord (v : Value) : Int32 :=
  Number.toInt32 v.toNumber

def ofWord (w : Int32) : Value :=
  number (Number.ofInt32 w)

end Value
end Untangle
