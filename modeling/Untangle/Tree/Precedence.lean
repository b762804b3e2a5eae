import Untangle.Token.Kind

/-!
# Operator precedence

Levels of binding strength, loosest first. The grammar climbs them and the printer puts
parentheses around every expression that binds more loosely than its place demands.
-/

namespace Untangle

inductive Precedence
  | comma
  | assignment
  | conditional
  | coalesce
  | logicalOr
  | logicalAnd
  | bitwiseOr
  | bitwiseXor
  | bitwiseAnd
  | equality
  | relational
  | shift
  | additive
  | multiplicative
  | exponentiation
  | unary
  | update
  | leftHandSide
  | member
  | primary
  deriving Repr, DecidableEq, Inhabited

namespace Precedence

def level : Precedence → Nat
  | comma => 0
  | assignment => 1
  | conditional => 2
  | coalesce => 3
  | logicalOr => 4
  | logicalAnd => 5
  | bitwiseOr => 6
  | bitwiseXor => 7
  | bitwiseAnd => 8
  | equality => 9
  | relational => 10
  | shift => 11
  | additive => 12
  | multiplicative => 13
  | exponentiation => 14
  | unary => 15
  | update => 16
  | leftHandSide => 17
  | member => 18
  | primary => 19

instance : LT Precedence where
  lt a b := a.level < b.level

instance : LE Precedence where
  le a b := a.level ≤ b.level

instance (a b : Precedence) : Decidable (a < b) :=
  inferInstanceAs (Decidable (a.level < b.level))

instance (a b : Precedence) : Decidable (a ≤ b) :=
  inferInstanceAs (Decidable (a.level ≤ b.level))

/-- The next stronger level; the strongest has none and stays. -/
def tighter : Precedence → Precedence
  | comma => assignment
  | assignment => conditional
  | conditional => coalesce
  | coalesce => logicalOr
  | logicalOr => logicalAnd
  | logicalAnd => bitwiseOr
  | bitwiseOr => bitwiseXor
  | bitwiseXor => bitwiseAnd
  | bitwiseAnd => equality
  | equality => relational
  | relational => shift
  | shift => additive
  | additive => multiplicative
  | multiplicative => exponentiation
  | exponentiation => unary
  | unary => update
  | update => leftHandSide
  | leftHandSide => member
  | member => primary
  | primary => primary

end Precedence

namespace TokenKind

/-- The level of a binary operator, logical ones included. -/
def binaryPrecedence? : TokenKind → Option Precedence
  | mark .coalesce => some .coalesce
  | mark .or => some .logicalOr
  | mark .and => some .logicalAnd
  | mark .bitOr => some .bitwiseOr
  | mark .bitXor => some .bitwiseXor
  | mark .bitAnd => some .bitwiseAnd
  | mark .equal | mark .notEqual | mark .strictEqual | mark .strictNotEqual => some .equality
  | mark .less | mark .greater | mark .lessEqual | mark .greaterEqual => some .relational
  | word .«instanceof» | word .«in» => some .relational
  | mark .shiftLeft | mark .shiftRight | mark .shiftRightUnsigned => some .shift
  | mark .plus | mark .minus => some .additive
  | mark .times | mark .divide | mark .modulo => some .multiplicative
  | mark .power => some .exponentiation
  | _ => none

def isRightAssociative (k : TokenKind) : Bool :=
  k == mark .power

end TokenKind
end Untangle
