import Untangle.Evaluation.Evaluate
import Untangle.Rewrite.Basic

/-!
# Code that is never used

Declarations that nothing refers to are removed, and an `if` statement whose condition is known
is replaced by the branch it takes. Both follow the bindings of the tree as it was at the start;
what becomes unused on the way is left for another run.
-/

namespace Untangle
namespace Rewrite

/-!
## Declarations
-/

/-- The initializer of a variable may be dropped. -/
def hasPureInitializer (b : Bindings) (f : Forest) (declaration : NodeId) : Bool :=
  match f.node? (some declaration) with
  | some (.declarator _ initializer) => b.isPure f initializer
  | _ => false

def isFunctionDeclaration (f : Forest) (s : Slot) : Bool :=
  f.satisfies s fun n =>
    match n with
    | .function .declaration _ _ _ _ _ => true
    | _ => false

def removeIfUnused (b : Bindings) (root : Slot) (binding : Binding) : Edit Bool := do
  let declaration := binding.declaration
  if binding.isReferenced || !binding.isStable then return false
  else if !(← Edit.look (·.isAttached (some declaration) root)) then return false
  else if binding.kind.isVariable then
    if ← Edit.look (hasPureInitializer b · declaration) then
      Edit.removeDeclarator (some declaration)
    else return false
  else if binding.kind == .function then
    if ← Edit.look (isFunctionDeclaration · (some declaration)) then
      Edit.remove (some declaration)
    else return false
  else return false

/-!
## Branches
-/

/-- A function or a `let`, `const` declaration among the statements. -/
def declaresInBlock (f : Forest) (statements : List Slot) : Bool :=
  statements.any fun s =>
    f.satisfies s fun n =>
      match n with
      | .function .declaration _ _ _ _ _ => true
      | .variableStatement kind _ => kind != .«var»
      | _ => false

/-- The subtree declares a name that is seen outside of it: a `var` or function declaration that
is not nested in a function. -/
def declaresOutside (f : Forest) : (fuel : Nat) → Slot → Bool
  | 0, _ => false
  | fuel + 1, s =>
      match f.node? s with
      | none => false
      | some (.variableStatement .«var» _) => true
      | some n =>
          if n.isFunction then isFunctionDeclaration f s
          else (Forest.childrenOf n).any fun i => declaresOutside f fuel (some i)

/-- The statements that stand for a branch once its `if` statement is gone. -/
def branchStatements (f : Forest) (branch : Slot) : List Slot :=
  match f.node? branch with
  | some (.body .block statements) =>
      if declaresInBlock f statements then [branch] else statements
  | _ => [branch]

def replaceByBranch (statement branch : Slot) : Edit Bool := do
  if branch.isNone then Edit.remove statement
  else
    let statements ← Edit.look (branchStatements · branch)
    for s in statements do
      let _ ← Edit.detach s
    Edit.splice statement statements

/-- The branches of an `if` statement with a known condition: the one it takes, and the one that
may be dropped. -/
def knownBranches? (b : Bindings) (root : Slot) (i : NodeId) (f : Forest) :
    Option (Slot × Slot) := do
  guard (f.isAttached (some i) root)
  match f.node? (some i) with
  | some (.conditionalStatement condition whenTrue whenFalse) =>
      if ← b.truth? f condition then some (whenTrue, whenFalse) else some (whenFalse, whenTrue)
  | _ => none

def pruneBranch (b : Bindings) (root : Slot) (i : NodeId) : Edit Bool := do
  let f ← get
  match knownBranches? b root i f with
  | some (taken, dropped) =>
      if declaresOutside f f.size dropped then return false
      else replaceByBranch (some i) taken
  | none => return false

def removeDeadCode (root : Slot) : Rewrite Bool := do
  let bindings ← Rewrite.bind root
  let removed ← Edit.changeAll (removeIfUnused bindings root) bindings.bindings.toList
  let sites := (← get).preorder root
  let pruned ← Edit.changeAll (pruneBranch bindings root) sites
  return removed || pruned

end Rewrite
end Untangle
