import Untangle.Tree.Forest
import Untangle.Number.Display

/-!
# Places

A tree holds no parentheses. Where an expression stands decides whether it needs them: the place
fixes how strongly it has to bind, whether an `in` would end it, and whether its first token
opens a statement.
-/

namespace Untangle

structure Place where
  /-- Expressions that bind more loosely need parentheses. -/
  minimum : Precedence
  /-- An `in` would be read as part of a loop head. -/
  noIn : Bool
  /-- The first token opens an expression statement. -/
  opensStatement : Bool
  /-- Parentheses are needed whatever the expression is. -/
  isWrapped : Bool
  deriving Repr, DecidableEq

namespace Place

/-- A place enclosed by brackets or keywords. -/
def enclosed (minimum : Precedence) : Place :=
  ⟨minimum, false, false, false⟩

/-- A place after the first token of the expression around it. -/
def inner (place : Place) (minimum : Precedence) : Place :=
  { place with minimum := minimum, opensStatement := false, isWrapped := false }

/-- A place at the first token of the expression around it. -/
def leading (place : Place) (minimum : Precedence) : Place :=
  { place with minimum := minimum, isWrapped := false }

def wrappedIf (place : Place) (condition : Bool) : Place :=
  { place with isWrapped := condition }

/-- Inside parentheses `in` is an operator again. -/
def unwrapped (place : Place) : Place :=
  { place with noIn := false, isWrapped := false }

end Place

/-!
## First tokens
-/

/-- The slot whose first token is the first token of the whole expression. -/
def Node.leading? {α : Type} : Node α → Option α
  | call .call callee _ _ _ => some callee
  | access _ object _ _ _ => some object
  | binary .default _ _ _ => none
  | binary _ left _ _ => some left
  | taggedTemplate tag _ => some tag
  | conditional condition _ _ => some condition
  | unary .after _ argument => some argument
  | list .sequence (first :: _) => some first
  | _ => none

namespace Forest

def leftmostFrom (f : Forest) : Nat → Slot → Slot
  | 0, s => s
  | fuel + 1, s =>
      match (f.node? s).bind Node.leading? with
      | some first => f.leftmostFrom fuel first
      | none => s

/-- The innermost expression that starts where the expression starts. -/
def leftmost (f : Forest) (s : Slot) : Slot :=
  f.leftmostFrom f.size s

def startsWithObjectPattern (f : Forest) (s : Slot) : Bool :=
  f.satisfies (f.leftmost s) fun n =>
    match n with
    | .list .objectPattern _ => true
    | _ => false

/-- The expression starts with a brace. -/
def startsWithObject (f : Forest) (s : Slot) : Bool :=
  f.satisfies (f.leftmost s) fun n =>
    match n with
    | .list .objectLiteral _ | .list .objectPattern _ => true
    | _ => false

/-- A statement that started with this node would not be read as an expression: it starts with
`function`, `class`, a brace or `let [`. -/
def isAmbiguousStart (f : Forest) (cell : Cell) : Bool :=
  match cell.node with
  | .function .expression _ _ _ _ _ => true
  | .classLike .expression _ _ _ => true
  | .list .objectLiteral _ => true
  | .name .identifier text =>
      text == "let" && f.satisfies cell.parent fun n =>
        match n with
        | .access .element _ _ _ _ => true
        | _ => false
  | _ => false

/-!
## Callees and objects
-/

/-- A call or member access inside an optional chain. -/
def isChainLink (f : Forest) (s : Slot) : Bool :=
  f.satisfies s fun n =>
    match n with
    | .call .call _ _ _ inChain => inChain
    | .access _ _ _ _ inChain => inChain
    | _ => false

def hasCallFrom (f : Forest) : Nat → Slot → Bool
  | 0, _ => false
  | fuel + 1, s =>
      match f.node? s with
      | some (.call .call _ _ _ _) => true
      | some (.access _ object _ _ _) => f.hasCallFrom fuel object
      | _ => false

/-- A call stands somewhere along a chain of member accesses. -/
def memberChainHasCall (f : Forest) (s : Slot) : Bool :=
  f.hasCallFrom (f.size + 1) s

/-- A number prints as the source wrote it. -/
def numberText (value : Float) (raw : Option String) : String :=
  raw.getD (Number.display value)

/-- A number whose text a dot would extend. -/
def isIntegerLiteral (f : Forest) (s : Slot) : Bool :=
  f.satisfies s fun n =>
    match n with
    | .number value raw => (numberText value raw).toList.all Char.isDigit
    | _ => false

/-- Two signs in a row would be read as one operator. -/
def repeatsSign (f : Forest) (operator : TokenKind) (s : Slot) : Bool :=
  f.satisfies s fun n =>
    match operator, n with
    | .mark .plus, .unary .before inner _ => inner == .mark .plus || inner == .mark .increment
    | .mark .minus, .unary .before inner _ => inner == .mark .minus || inner == .mark .decrement
    | _, _ => false

/-- `??` may not be mixed with `&&` or `||`. -/
def mixesCoalesce (f : Forest) (operator : TokenKind) (s : Slot) : Bool :=
  f.satisfies s fun n =>
    match n with
    | .binary .logical _ inner _ =>
        operator.isLogical && (operator == .mark .coalesce) != (inner == .mark .coalesce)
    | _ => false

/-- An `else` after this statement would belong to an `if` inside it. -/
def endsWithOpenIfFrom (f : Forest) : Nat → Slot → Bool
  | 0, _ => false
  | fuel + 1, s =>
      match f.node? s with
      | some (.conditionalStatement _ _ none) => true
      | some (.conditionalStatement _ _ whenFalse) => f.endsWithOpenIfFrom fuel whenFalse
      | some (.forLoop _ _ _ statement) => f.endsWithOpenIfFrom fuel statement
      | some (.iteration _ _ _ statement _) => f.endsWithOpenIfFrom fuel statement
      | some (.guarded .whileLoop _ statement) => f.endsWithOpenIfFrom fuel statement
      | some (.guarded .withObject _ statement) => f.endsWithOpenIfFrom fuel statement
      | some (.labeled _ statement) => f.endsWithOpenIfFrom fuel statement
      | _ => false

def endsWithOpenIf (f : Forest) (s : Slot) : Bool :=
  f.endsWithOpenIfFrom (f.size + 1) s

end Forest
end Untangle
