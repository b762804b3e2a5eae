import Untangle.Evaluation.Operator
import Untangle.Scope.Bindings

/-!
# Constant expressions

An expression has a known value if everything that is run to compute it is known: literals, the
global constants, and operators on known values. Names with a binding, calls, accesses and
assignments are never known.
-/

namespace Untangle

/-!
## Values
-/

/-- The global names with a fixed value. -/
def globalConstant? (name : String) : Option Value :=
  if name = "undefined" then some .undefined
  else if name = "NaN" then some (.number (0 / 0))
  else if name = "Infinity" then some (.number (1 / 0))
  else none

/-- The text of a template whose pieces and substitutions are known. A replacement character in
a piece may stand for a lone surrogate, which no text can hold. -/
def templateText? (value? : Slot → Option Value) : List Quasi → List Slot → Option String
  | [], _ => some ""
  | quasi :: quasis, expressions => do
      let piece ← quasi.cooked.filter fun cooked => !cooked.toList.contains '\ufffd'
      let substitution ←
        match expressions with
        | [] => some ""
        | expression :: _ => (value? expression).map Value.toText
      let rest ← templateText? value? quasis expressions.tail
      return piece ++ substitution ++ rest

/-- The value of one node, given those of its children. -/
def Bindings.nodeValue? (b : Bindings) (value? : Slot → Option Value) (s : Slot) :
    Node Slot → Option Value
  | .number x _ => some (.number x)
  | .string text _ loneSurrogate => if loneSurrogate then none else some (.string text)
  | .boolean value => some (.boolean value)
  | .bare .null => some .null
  | .name .identifier text =>
      if (b.resolve s).isSome || b.isDynamic s then none else globalConstant? text
  | .unary .before operator argument => (value? argument).bind (Value.applyUnary operator)
  | .binary .binary left operator right => do
      Value.applyBinary operator (← value? left) (← value? right)
  | .binary .logical left operator right => do
      let known ← value? left
      if ← Value.shortCircuits? operator known then some known else value? right
  | .template quasis expressions => (templateText? value? quasis expressions).map .string
  | .conditional condition whenTrue whenFalse => do
      if (← value? condition).isTruthy then value? whenTrue else value? whenFalse
  | _ => none

/-- The value of an expression nested at most `depth` deep. -/
def Bindings.valueWithin? (b : Bindings) (f : Forest) : (depth : Nat) → Slot → Option Value
  | 0, _ => none
  | depth + 1, s => (f.node? s).bind (b.nodeValue? (b.valueWithin? f depth) s)

/-- The value of an expression, if it is known. -/
def Bindings.evaluate (b : Bindings) (f : Forest) (s : Slot) : Option Value :=
  b.valueWithin? f (Limits.evaluationDepth + 1) s

/-!
## Effects
-/

/-- The property of an object literal has no effect if its key and its value have none. -/
def Bindings.isPureProperty (f : Forest) (pure? : Slot → Bool) (s : Slot) : Bool :=
  match f.node? s with
  | some (.property _ key value computed) =>
      (!computed || f.satisfies key Node.isLiteral) && pure? value
  | _ => false

/-- One node has no effect, given what is known of its children. -/
def Bindings.isPureNode (b : Bindings) (f : Forest) (pure? : Slot → Bool) (s : Slot) :
    Node Slot → Bool
  | .string _ _ _ | .number _ _ | .boolean _ | .regularExpression _ => true
  | .bare .null | .bare .this | .bare .omitted => true
  | .function .expression _ _ _ _ _ | .function .arrow _ _ _ _ _ => true
  | .name .identifier text =>
      !b.isDynamic s && ((b.resolve s).isSome || (globalConstant? text).isSome)
  | .list .arrayLiteral elements | .list .sequence elements => elements.all pure?
  | .list .objectLiteral properties => properties.all (isPureProperty f pure?)
  | .unary .before operator argument =>
      operator != .word .delete && !operator.isUpdate && pure? argument
  | .binary .binary left operator right =>
      operator != .word .in && operator != .word .instanceof && pure? left && pure? right
  | .binary .logical left _ right => pure? left && pure? right
  | .template _ expressions =>
      expressions.all fun e => pure? e && f.satisfies e Node.isLiteral
  | .conditional condition whenTrue whenFalse =>
      pure? condition && pure? whenTrue && pure? whenFalse
  | _ => false

def Bindings.isPureWithin (b : Bindings) (f : Forest) : (depth : Nat) → Slot → Bool
  | 0, _ => false
  | depth + 1, s => (f.node? s).all (b.isPureNode f (b.isPureWithin f depth) s)

/-- Evaluating the expression changes nothing and cannot fail. An empty slot is pure. -/
def Bindings.isPure (b : Bindings) (f : Forest) (s : Slot) : Bool :=
  b.isPureWithin f (Limits.evaluationDepth + 1) s

/-!
## Truth
-/

/-- Whether a condition holds, if that is known. Functions, and literals of arrays and objects
without effects, are true without having a primitive value. -/
def Bindings.truth? (b : Bindings) (f : Forest) (s : Slot) : Option Bool :=
  match f.node? s with
  | none => none
  | some (.function .expression _ _ _ _ _) | some (.function .arrow _ _ _ _ _) => some true
  | some (.list .arrayLiteral _) | some (.list .objectLiteral _) =>
      if b.isPure f s then some true else none
  | some _ => (b.evaluate f s).map Value.isTruthy

end Untangle
