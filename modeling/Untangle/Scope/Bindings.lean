import Std.Data.HashMap
import Std.Data.HashSet
import Untangle.Limits
import Untangle.Tree.Forest

/-!
# Scopes, bindings and references

A binding is a name declared in a scope, together with every use of the name that is known to
reach it. All scopes and bindings of one tree are recorded together.
-/

namespace Untangle

abbrev ScopeId := Nat

abbrev BindingId := Nat

/-!
## Scopes
-/

inductive ScopeKind
  | program
  /-- The parameters and the body of a function, or a static block of a class. -/
  | function
  /-- A block, a loop, the body of a `switch`, or a class expression. -/
  | block
  | handler
  deriving Repr, DecidableEq, Inhabited

/-- A `var` declaration belongs to the nearest scope of such a kind. -/
def ScopeKind.isHoistingTarget : ScopeKind → Bool
  | program | function => true
  | block | handler => false

structure Scope where
  kind : ScopeKind
  /-- The node that opens the scope. -/
  node : Slot
  parent : Option ScopeId
  deriving Repr, DecidableEq, Inhabited

/-!
## References
-/

inductive ReferenceKind
  | read
  /-- An assignment target, an update operand or a loop target. -/
  | write
  /-- The callee of a call. -/
  | call
  deriving Repr, DecidableEq, Inhabited

structure Reference where
  node : NodeId
  kind : ReferenceKind
  deriving Repr, DecidableEq, Inhabited

/-!
## Bindings
-/

inductive BindingKind
  | «var» | «let» | «const»
  /-- A function declaration. -/
  | function
  /-- The name of a function expression, which is visible inside it. -/
  | functionName
  | «class»
  | parameter
  | catchParameter
  deriving Repr, DecidableEq, Inhabited

/-- Declared by a declarator, or by a name in the pattern of one. -/
def BindingKind.isVariable : BindingKind → Bool
  | «var» | «let» | «const» => true
  | _ => false

def VariableKind.bindingKind : VariableKind → BindingKind
  | «var» => .«var»
  | «let» => .«let»
  | «const» => .«const»

structure Binding where
  name : String
  kind : BindingKind
  scope : ScopeId
  /-- A declarator, function or class; for parameters and names inside patterns the identifier
  itself. -/
  declaration : NodeId
  nameNode : NodeId
  /-- Its scope declares the name more than once. -/
  redeclared : Bool
  /-- Used inside the body of a `with` statement, where the object may have a property of that
  name. -/
  dynamic : Bool
  references : Array Reference
  deriving Repr, DecidableEq, Inhabited

namespace Binding

/-- Every reference is known to reach this declaration. -/
def isStable (b : Binding) : Bool :=
  !b.redeclared && !b.dynamic

def isReferenced (b : Binding) : Bool :=
  !b.references.isEmpty

def hasWrites (b : Binding) : Bool :=
  b.references.any fun r => r.kind == .write

end Binding

/-!
## The bindings of a tree
-/

/-- The record describes the tree as it was when it was bound; edits do not update it. -/
structure Bindings where
  scopes : Array Scope
  bindings : Array Binding
  /-- The names that each scope declares. -/
  names : Std.HashMap (ScopeId × String) BindingId
  /-- The scope that a node opens. -/
  opened : Std.HashMap NodeId ScopeId
  /-- The bindings of identifiers, declared names included. -/
  resolved : Std.HashMap NodeId BindingId
  declared : Std.HashMap NodeId BindingId
  /-- Identifiers used inside the body of a `with` statement. -/
  dynamicNames : Std.HashSet NodeId
  /-- Some part of the tree lies too deep and was left out. -/
  truncated : Bool
  deriving Inhabited

namespace Bindings

def empty : Bindings :=
  ⟨#[], #[], ∅, ∅, ∅, ∅, ∅, false⟩

/-!
## Queries
-/

/-- The program scope is always opened first. -/
def programScope : ScopeId := 0

def scope? (b : Bindings) (s : ScopeId) : Option Scope :=
  b.scopes[s]?

def binding? (b : Bindings) (i : BindingId) : Option Binding :=
  b.bindings[i]?

/-- The binding that an identifier uses or declares. -/
def resolve (b : Bindings) (s : Slot) : Option BindingId :=
  s.bind fun i => b.resolved[i]?

def resolveBinding (b : Bindings) (s : Slot) : Option Binding :=
  (b.resolve s).bind b.binding?

/-- The binding that a declaration introduces. -/
def ofDeclaration (b : Bindings) (s : Slot) : Option BindingId :=
  s.bind fun i => b.declared[i]?

def references (b : Bindings) (i : BindingId) : List Reference :=
  ((b.binding? i).map fun binding => binding.references.toList).getD []

/-- The identifier may name a property of the object of a `with` statement. -/
def isDynamic (b : Bindings) (s : Slot) : Bool :=
  s.any b.dynamicNames.contains

def lookupFrom (b : Bindings) (name : String) : Nat → Option ScopeId → Option BindingId
  | 0, _ => none
  | _ + 1, none => none
  | steps + 1, some s =>
      match b.names[(s, name)]? with
      | some i => some i
      | none => b.lookupFrom name steps ((b.scope? s).bind Scope.parent)

/-- The binding of a name seen from a scope. -/
def lookup (b : Bindings) (s : ScopeId) (name : String) : Option BindingId :=
  b.lookupFrom name Limits.scopeSteps (some s)

def scopeOfFrom (b : Bindings) (f : Forest) : Nat → Slot → ScopeId
  | 0, _ => programScope
  | _ + 1, none => programScope
  | steps + 1, some i =>
      match b.opened[i]? with
      | some s => s
      | none => b.scopeOfFrom f steps (f.parent (some i))

/-- The innermost scope around a node. A node that opens a scope lies inside it. -/
def scopeOf (b : Bindings) (f : Forest) (s : Slot) : ScopeId :=
  b.scopeOfFrom f Limits.scopeSteps s

def hoistingFrom (b : Bindings) : Nat → ScopeId → ScopeId
  | 0, s => s
  | steps + 1, s =>
      match b.scope? s with
      | none => s
      | some scope =>
          if scope.kind.isHoistingTarget then s
          else
            match scope.parent with
            | none => s
            | some parent => b.hoistingFrom steps parent

/-- The scope to which a `var` declaration belongs. -/
def hoistingScope (b : Bindings) (s : ScopeId) : ScopeId :=
  b.hoistingFrom Limits.scopeSteps s

/-!
## Growth
-/

def openScope (b : Bindings) (kind : ScopeKind) (node : Slot) (parent : Option ScopeId) :
    ScopeId × Bindings :=
  let s := b.scopes.size
  (s, { b with
        scopes := b.scopes.push ⟨kind, node, parent⟩
        opened := node.elim b.opened fun i => b.opened.insert i s })

def modifyBinding (b : Bindings) (i : BindingId) (change : Binding → Binding) : Bindings :=
  { b with bindings := b.bindings.modify i change }

/-- Let an identifier and a declaration stand for a binding. -/
def attach (b : Bindings) (i : BindingId) (nameNode declaration : NodeId) : Bindings :=
  { b with
    resolved := b.resolved.insert nameNode i
    declared := b.declared.insert declaration i }

/-- A new declaration of a name that its scope already declares belongs to the first one, except
that a parameter hides the name of its own function expression. -/
def reuses (kind : BindingKind) (existing : Binding) : Bool :=
  !(kind == .parameter && existing.kind == .functionName)

/-- Declare a name in a scope. -/
def declare (b : Bindings) (scope : ScopeId) (kind : BindingKind) (name : String)
    (nameNode declaration : NodeId) : Bindings :=
  let reused := b.names[(scope, name)]?.filter fun i => (b.binding? i).all (reuses kind)
  match reused with
  | some i =>
      (b.modifyBinding i fun binding => { binding with redeclared := true }).attach i nameNode
        declaration
  | none =>
      let i := b.bindings.size
      let binding : Binding :=
        { name, kind, scope, declaration, nameNode
          redeclared := false, dynamic := false, references := #[] }
      { b with
        bindings := b.bindings.push binding
        names := b.names.insert (scope, name) i }.attach i nameNode declaration

/-- Record the use of a name. -/
def addReference (b : Bindings) (scope : ScopeId) (inWith : Bool) (kind : ReferenceKind)
    (name : String) (node : NodeId) : Bindings :=
  let b := if inWith then { b with dynamicNames := b.dynamicNames.insert node } else b
  match b.lookup scope name with
  | none => b
  | some i =>
      let b := { b with resolved := b.resolved.insert node i }
      b.modifyBinding i fun binding =>
        { binding with
          references := binding.references.push ⟨node, kind⟩
          dynamic := binding.dynamic || inWith }

/-- The declaration of a name inside the body of a `with` statement may write to the object. -/
def markDynamic (b : Bindings) (inWith : Bool) (nameNode : Slot) : Bindings :=
  if inWith then
    (b.resolve nameNode).elim b fun i =>
      b.modifyBinding i fun binding => { binding with dynamic := true }
  else b

def truncate (b : Bindings) : Bindings :=
  { b with truncated := true }

end Bindings
end Untangle
