import Untangle.Evaluation.Evaluate
import Untangle.Evaluation.Value
import Untangle.Number.Binary64
import Untangle.Rewrite.Basic

/-!
# Folding constant expressions

Operations with a known value become literals, outermost first: what stands inside a folded
operation is not looked at. Numbers written in another radix become decimal.
-/

namespace Untangle

/-!
## Literals of values

Most primitive values can be written as a literal. Undefined, NaN and the infinities are names or
expressions, and a literal cannot hold negative zero.
-/

namespace Value

def hasLiteral : Value → Bool
  | undefined => false
  | number x => !x.isNaN && !x.isInf && !Number.isNegativeZero x
  | null | boolean _ | string _ => true

end Value

namespace Edit

/-- A new node that denotes a value. -/
def addLiteral? (v : Value) : Edit (Option NodeId) :=
  if v.hasLiteral then
    match v with
    | .undefined => return none
    | .null => some <$> modifyGet fun f => f.addNew (.bare .null)
    | .boolean b => some <$> modifyGet fun f => f.addNew (.boolean b)
    | .number x => some <$> modifyGet fun f => f.addNumber x
    | .string s => some <$> modifyGet fun f => f.addString s
  else return none

end Edit

namespace Rewrite

/-!
## Numbers
-/

/-- A numeral with a radix mark and at least one more character. -/
def isRadixNumeral (raw : String) : Bool :=
  match raw.toList with
  | '0' :: mark :: _ :: _ => ['x', 'X', 'o', 'O', 'b', 'B'].contains mark
  | _ => false

def normalizeNumber (i : NodeId) : Edit Bool := do
  match ← Edit.look (·.node? (some i)) with
  | some (.number value (some raw)) =>
      if isRadixNumeral raw then
        Edit.setNode i (.number value none)
        return true
      else return false
  | _ => return false

/-!
## Operations
-/

def isOperation : Node Slot → Bool
  | .binary .binary _ _ _ => true
  | .binary .logical _ _ _ => true
  | _ => false

/-- The value of a binary or logical operation, if it is known. -/
def operationValue? (b : Bindings) (f : Forest) (s : Slot) : Option Value :=
  if f.satisfies s isOperation then b.evaluate f s else none

def foldOperation (b : Bindings) (i : NodeId) : Edit Bool := do
  match ← Edit.look (operationValue? b · (some i)) with
  | none => return false
  | some value =>
      match ← Edit.addLiteral? value with
      | none => return false
      | some literal => Edit.replace (some i) (some literal)

/-- Fold the outermost operations of a tree; paths longer than the fuel are cut. -/
def foldWithin (b : Bindings) : (fuel : Nat) → NodeId → Edit Bool
  | 0, _ => return false
  | fuel + 1, i => do
      if ← foldOperation b i then return true
      let children ← Edit.look (·.children (some i))
      Edit.changeAll (foldWithin b fuel) children

def simplifyExpressions (root : Slot) : Rewrite Bool := do
  let bindings ← Rewrite.bind root
  let sites := (← get).preorder root
  let normalized ← Edit.changeAll normalizeNumber sites
  let fuel := (← get).size
  let folded ← Edit.changeAll (foldWithin bindings fuel) root.toList
  return normalized || folded

end Rewrite

end Untangle
