import Untangle.Number.Binary64
import Untangle.Scope.Bindings

/-!
# Shapes of code

Generated code follows a few patterns: a function that only returns an element of an array, a
function that only evaluates one expression, an array that is only read. Rewrites and detection
recognise the same shapes.
-/

namespace Untangle
namespace Forest

/-!
## Function bodies
-/

/-- The statement that is the whole body of a function. -/
def onlyStatement? (f : Forest) (code : Slot) : Option (Node Slot) :=
  match f.node? code with
  | some (.body .block [statement]) => f.node? statement
  | _ => none

/-- The expression of a body `{ return e; }`. -/
def returnedExpression? (f : Forest) (code : Slot) : Option Slot :=
  match f.onlyStatement? code with
  | some (.operand .returnStatement (some e)) => some (some e)
  | _ => none

/-- The expression of a body `{ e; }`. -/
def soleExpression? (f : Forest) (code : Slot) : Option Slot :=
  match f.onlyStatement? code with
  | some (.operand .expressionStatement e) => some e
  | _ => none

/-!
## Names
-/

/-- An identifier in this position names a variable that is used, and not a property, a label or
a declaration. -/
def isReference (f : Forest) (s : Slot) : Bool :=
  match f.node? (f.parent s) with
  | some (.access .property _ key _ _) => key != s
  | some (.property _ key _ computed) => computed || key != s
  | some (.labeled _ _) | some (.jump _ _) => false
  | some (.declarator ident _) => ident != s
  | some (.function _ ident parameters _ _ _) => ident != s && !parameters.contains s
  | some (.catchClause parameter _) => parameter != s
  | some (.classLike _ ident _ _) => ident != s
  | some (.method _ key _ computed _) => computed || key != s
  | some (.field key _ computed _) => computed || key != s
  | _ => true

/-!
## Packed arrays
-/

/-- A node with this child writes to what the child refers to: it assigns, updates or deletes it,
or it is a loop that has it as its target. -/
def writesTo (s : Slot) : Node Slot → Bool
  | .binary .assignment target _ _ => target == s
  | .unary _ operator _ => operator.isUpdate || operator == .word .delete
  | .iteration _ target _ _ _ => target == s
  | _ => false

/-- The access whose object is the given node, unless the node that uses it writes to it. -/
def elementRead? (f : Forest) (s : Slot) : Option Slot :=
  let access := f.parent s
  match f.node? access with
  | some (.access .element object _ _ _) =>
      if object != s || f.satisfies (f.parent access) (writesTo access) then none
      else some access
  | _ => none

/-- The elements of the array literal that a declaration binds. -/
def declaredElements? (f : Forest) (declaration : NodeId) : Option (List Slot) :=
  match f.node? (some declaration) with
  | some (.declarator _ initializer) =>
      match f.node? initializer with
      | some (.list .arrayLiteral elements) => some elements
      | _ => none
  | _ => none

end Forest

/-- The elements of an array that is declared once and of which only elements are ever read.
Every element has to be acceptable. -/
def Binding.packedElements? (binding : Binding) (f : Forest) (accept : Node Slot → Bool) :
    Option (List Slot) :=
  if binding.isStable && binding.kind.isVariable then
    match f.declaredElements? binding.declaration with
    | some elements =>
        let isRead := fun (r : Reference) =>
          r.kind == .read && (f.elementRead? (some r.node)).isSome
        if elements.all (f.satisfies · accept) && binding.references.all isRead then
          some elements
        else none
    | none => none
  else none

def Node.isStringOrNumber {α : Type} : Node α → Bool
  | string _ _ _ => true
  | number _ _ => true
  | _ => false

/-- A double that is a valid index into a list of the given length. -/
def arrayIndex? (x : Float) (length : Nat) : Option Nat :=
  match Number.Binary64.ofFloat? x with
  | some b =>
      if x < 0 || !b.isInteger then none
      else some b.truncate.toNat |>.filter (· < length)
  | none => none

end Untangle
