import Untangle.Scope.Resolution
import Untangle.Tree.Edit

/-!
# Rewrites

A rewrite edits a forest in place and tells whether it changed anything. Sites that do not meet
the conditions of a rewrite are left alone; only a tree that cannot be analysed is an error, and
edits made before an error stay.
-/

namespace Untangle
/-!
## Failures
-/

inductive RewriteError
  /-- The tree is too deep to be bound completely. -/
  | tooDeep
  | missingNode (node : Slot)
  | unexpectedNode (node : Slot) (found expected : String)
  | malformed (description : String)
  deriving Repr, DecidableEq

namespace RewriteError

/-- The number of a node in messages. The empty slot has the largest 32-bit number. -/
def slotNumber (s : Slot) : String :=
  toString (s.getD (UInt32.size - 1))

def message : RewriteError → String
  | tooDeep => "tree exceeds the maximum traversal depth"
  | missingNode node => "node " ++ slotNumber node ++ " is missing"
  | unexpectedNode node found expected =>
      "node " ++ slotNumber node ++ " is a " ++ found ++ ", expected " ++ expected
  | malformed description => description

end RewriteError

/-!
## Computations
-/

abbrev Edit := StateM Forest

abbrev Rewrite := ExceptT RewriteError Edit

namespace Edit

/-- The forest at this point. -/
def look {α : Type} (query : Forest → α) : Edit α :=
  return query (← get)

/-- Work on every site in order; the answer tells whether any was changed. -/
def changeAll {α : Type} (site : α → Edit Bool) (sites : List α) : Edit Bool :=
  sites.foldlM
    (fun changed a => do
      let hit ← site a
      return changed || hit)
    false

def replace (old new : Slot) : Edit Bool :=
  modifyGet fun f => (f.replace old new).swap

def detach (s : Slot) : Edit Bool :=
  modifyGet fun f => (f.detach s).swap

def splice (old : Slot) (new : List Slot) : Edit Bool :=
  modifyGet fun f => (f.splice old new).swap

def remove (s : Slot) : Edit Bool :=
  modifyGet fun f => (f.remove s).swap

def copy (s : Slot) : Edit Slot :=
  modifyGet fun f => f.copy s

def setNode (i : NodeId) (n : Node Slot) : Edit Unit :=
  modify fun f => f.setNode i n

end Edit

namespace Rewrite

def requireNode (root : Slot) : Rewrite Unit := do
  if !(← get).contains root then throw (.missingNode root)

/-- The bindings of a tree that can be bound completely. -/
def bind (root : Slot) : Rewrite Bindings := do
  requireNode root
  let bindings := Bindings.ofForest (← get) root
  if bindings.truncated then throw .tooDeep
  return bindings

end Rewrite

/-!
## Removing declarations
-/

namespace Edit

/-- The statement declares nothing any more. -/
def isEmptyDeclaration (f : Forest) (s : Slot) : Bool :=
  f.satisfies s fun n =>
    match n with
    | .variableStatement _ declarators => declarators.isEmpty
    | _ => false

/-- Remove a declarator, and its statement once that declares nothing. The target of a loop over
keys or values stays. -/
def removeDeclarator (s : Slot) : Edit Bool := do
  let f ← get
  let statement := f.parent s
  match f.node? (f.parent statement) with
  | none => return false
  | some (.iteration _ _ _ _ _) => return false
  | some holder =>
      if ← detach s then
        if ← look (isEmptyDeclaration · statement) then
          let _ ←
            match holder with
            | .forLoop _ _ _ _ => detach statement
            | _ => remove statement
        return true
      else return false

end Edit

end Untangle
