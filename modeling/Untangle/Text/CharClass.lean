import Untangle.Text.Unicode

/-!
# Character classes of ECMAScript source text

The lexical grammar sorts characters into line terminators, blanks, and the characters that may
start or continue an identifier. Beyond ASCII the identifier classes follow the Unicode
properties tabulated in the imported module.
-/

namespace Untangle
namespace Text

/-!
## Unicode properties
-/

def inRanges (table : List (Nat × Nat)) (c : Char) : Bool :=
  table.any fun range => range.1 ≤ c.toNat && c.toNat ≤ range.2

def isAscii (c : Char) : Bool :=
  c.toNat < 0x80

def isAlphabetic (c : Char) : Bool :=
  if isAscii c then c.isAlpha else inRanges alphabeticRanges c

def isNumeric (c : Char) : Bool :=
  if isAscii c then c.isDigit else inRanges numericRanges c

/-- Code points with the Unicode property `White_Space`. -/
def whiteSpaceRanges : List (Nat × Nat) :=
  [(0x9, 0xd), (0x20, 0x20), (0x85, 0x85), (0xa0, 0xa0), (0x1680, 0x1680), (0x2000, 0x200a),
   (0x2028, 0x2029), (0x202f, 0x202f), (0x205f, 0x205f), (0x3000, 0x3000)]

def isWhiteSpace (c : Char) : Bool :=
  inRanges whiteSpaceRanges c

/-!
## Lexical classes
-/

def isLineBreak (c : Char) : Bool :=
  c == '\n' || c == '\r' || c == '\u2028' || c == '\u2029'

/-- Blanks separate tokens without ending a line. -/
def isBlank (c : Char) : Bool :=
  c == '\ufeff' || (!isLineBreak c && isWhiteSpace c)

def isIdentifierStart (c : Char) : Bool :=
  isAlphabetic c || c == '$' || c == '_'

def isIdentifierPart (c : Char) : Bool :=
  isIdentifierStart c || isNumeric c || c == '\u200c' || c == '\u200d'

def isOctalDigit (c : Char) : Bool :=
  '0' ≤ c && c ≤ '7'

def isHexDigit (c : Char) : Bool :=
  c.isDigit || ('a' ≤ c && c ≤ 'f') || ('A' ≤ c && c ≤ 'F')

/-- The value of `c` as a digit of the given radix, letters standing for ten and above. -/
def digitValue? (radix : Nat) (c : Char) : Option Nat :=
  let value :=
    if c.isDigit then some (c.toNat - '0'.toNat)
    else if 'a' ≤ c ∧ c ≤ 'z' then some (c.toNat - 'a'.toNat + 10)
    else if 'A' ≤ c ∧ c ≤ 'Z' then some (c.toNat - 'A'.toNat + 10)
    else none
  value.filter (· < radix)

/-- Texts that may follow a dot as a property name. -/
def isIdentifierName (text : String) : Bool :=
  match text.toList with
  | [] => false
  | first :: rest => isIdentifierStart first && rest.all isIdentifierPart

/-!
## Trimming
-/

def trim (drop : Char → Bool) (cs : List Char) : List Char :=
  ((cs.dropWhile drop).reverse.dropWhile drop).reverse

end Text
end Untangle
