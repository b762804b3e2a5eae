import Untangle.Rewrite.Basic
import Untangle.Rewrite.Shape

/-!
# Calls of element proxies

An element proxy is a function that only returns an element of an array at an index computed from
its parameters. A call with numbers is replaced by the element it selects.
-/

namespace Untangle

/-- A function `(parameters) { return object[index]; }`. -/
structure ElementProxy where
  parameters : List String
  object : Slot
  index : Slot
  deriving Repr, DecidableEq, Inhabited

namespace ElementProxy

def ofFunction? (f : Forest) (parameters : List Slot) (code : Slot) : Option ElementProxy := do
  match f.node? (← f.returnedExpression? code) with
  | some (.access .element object index _ _) =>
      let _ ← f.identifierText? object
      return ⟨← parameters.mapM f.identifierText?, object, index⟩
  | _ => none

/-- The proxy that a binding always stands for: a function declaration, or a function expression
that a variable is declared with. -/
def ofBinding? (f : Forest) (binding : Binding) : Option ElementProxy :=
  if !binding.isStable || binding.hasWrites then none
  else
    match binding.kind, f.node? (some binding.declaration) with
    | .function, some (.function .declaration _ parameters code _ _) =>
        ofFunction? f parameters code
    | kind, some (.declarator _ initializer) =>
        match kind.isVariable, f.node? initializer with
        | true, some (.function .expression _ parameters code _ _) =>
            ofFunction? f parameters code
        | _, _ => none
    | _, _ => none

/-!
## The selected element
-/

/-- The arithmetic that may compute an index. Division by zero has no answer. -/
def applyArithmetic (operator : TokenKind) (x y : Float) : Option Float :=
  match operator with
  | .mark .plus => some (x + y)
  | .mark .minus => some (x - y)
  | .mark .times => some (x * y)
  | .mark .divide => if y != 0 then some (x / y) else none
  | .mark .modulo => if y != 0 then some (Number.remainder x y) else none
  | _ => none

/-- The number that an index denotes when names stand for given numbers. -/
def evaluateIndex (f : Forest) (numberOf : String → Option Float) :
    (depth : Nat) → Slot → Option Float
  | 0, _ => none
  | depth + 1, s =>
      match f.node? s with
      | some (.number value _) => some value
      | some (.name .identifier text) => numberOf text
      | some (.binary .binary left operator right) => do
          applyArithmetic operator (← evaluateIndex f numberOf depth left)
            (← evaluateIndex f numberOf depth right)
      | _ => none

def numberLiteral? (f : Forest) (s : Slot) : Option Float :=
  match f.node? s with
  | some (.number value _) => some value
  | _ => none

/-- The numbers of parameters; the last parameter of a name hides the others. -/
def argument? (parameters : List String) (values : List Float) (name : String) :
    Option Float :=
  ((parameters.zip values).reverse.find? fun p => p.1 == name).map Prod.snd

/-- The element that a call selects. -/
def selected? (p : ElementProxy) (b : Bindings) (f : Forest) (args : List Slot) :
    Option Slot := do
  guard (args.length = p.parameters.length)
  let values ← args.mapM (numberLiteral? f)
  let array ← b.resolveBinding p.object
  let elements ← array.packedElements? f Node.isLiteral
  let index ← evaluateIndex f (argument? p.parameters values) (Limits.evaluationDepth + 1) p.index
  let position ← arrayIndex? index elements.length
  elements[position]?

end ElementProxy

namespace Rewrite

def isCall (f : Forest) (i : NodeId) : Bool :=
  f.satisfies (some i) fun n =>
    match n with
    | .call .call _ _ _ _ => true
    | _ => false

/-- What the call at a node selects from an array. -/
def selectedByCall? (b : Bindings) (proxies : Array (Option ElementProxy)) (root : Slot)
    (i : NodeId) (f : Forest) : Option Slot := do
  guard (f.isAttached (some i) root)
  match f.node? (some i) with
  | some (.call .call callee args _ _) =>
      let proxy ← (← proxies[← b.resolve callee]?)
      proxy.selected? b f args
  | _ => none

def inlineProxyCall (b : Bindings) (proxies : Array (Option ElementProxy)) (root : Slot)
    (i : NodeId) : Edit Bool := do
  match ← Edit.look (selectedByCall? b proxies root i) with
  | some element => Edit.replace (some i) (← Edit.copy element)
  | none => return false

/-- Inner calls come first, so that a call may be the argument of another. -/
def removeProxyFunctions (root : Slot) : Rewrite Bool := do
  let bindings ← Rewrite.bind root
  let f ← get
  let proxies := bindings.bindings.map (ElementProxy.ofBinding? f)
  let calls := (f.preorder root).filter (isCall f)
  Edit.changeAll (inlineProxyCall bindings proxies root) calls.reverse

end Rewrite
end Untangle
