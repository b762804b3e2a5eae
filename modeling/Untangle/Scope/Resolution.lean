import Untangle.Grammar.Program
import Untangle.Scope.Declaration

/-!
# Resolving names

The second walk over a tree finds the binding of every name that is used. A name is looked up in
the innermost scope around it, whatever the order of declarations and uses.
-/

namespace Untangle

/-- Where a walk stands. -/
structure Outlook where
  scope : ScopeId
  /-- Inside the body of a `with` statement. -/
  inWith : Bool
  deriving Repr, DecidableEq

/-- The answers of a walk for the next deeper level. -/
structure ResolutionWalk (m : Type → Type) where
  /-- Resolve the names in a tree. The kind matters where the tree is a single name. -/
  node : Outlook → ReferenceKind → Slot → m Unit
  /-- Resolve the names in a target. Without a kind the target declares its names. -/
  pattern : Outlook → Option ReferenceKind → Slot → m Unit

namespace ResolutionWalk

variable {m : Type → Type} [Monad m] [MonadStateOf Bindings m] (w : ResolutionWalk m)

def nodes (o : Outlook) (slots : List Slot) : m Unit :=
  slots.forM (w.node o .read)

def children (o : Outlook) (n : Node Slot) : m Unit :=
  (Forest.childrenOf n).forM fun i => w.node o .read (some i)

def nodeIf (condition : Bool) (o : Outlook) (s : Slot) : m Unit :=
  if condition then w.node o .read s else pure ()

/-!
## One level
-/

def function (o : Outlook) (form : FunctionForm) (ident : Slot) (parameters : List Slot)
    (code : Slot) : m Unit := do
  if form == .declaration then modifyThe Bindings fun b => b.markDynamic o.inWith ident
  parameters.forM (w.pattern o none)
  w.node o .read code

def resolveNode (o : Outlook) (kind : ReferenceKind) (i : NodeId) (n : Node Slot) :
    m Unit :=
  match n with
  | .name .identifier text =>
      modifyThe Bindings fun b => b.addReference o.scope o.inWith kind text i
  | .declarator name initializer => do
      w.pattern o none name
      w.node o .read initializer
  | .function form ident parameters code _ _ => w.function o form ident parameters code
  | .catchClause parameter block => do
      w.pattern o none parameter
      w.node o .read block
  | .classLike _ _ heritage members => w.nodes o (heritage :: members)
  | .method _ key value computed _ => do
      w.nodeIf computed o key
      w.node o .read value
  | .field key value computed _ => do
      w.nodeIf computed o key
      w.node o .read value
  | .list .objectPattern _ | .list .arrayPattern _ | .binary .default _ _ _
  | .operand .rest _ => w.pattern o (some .write) (some i)
  | .guarded .withObject object statement => do
      w.node o .read object
      w.node { o with inWith := true } .read statement
  | .labeled _ statement => w.node o .read statement
  | .jump _ _ => pure ()
  | .access .property object _ _ _ => w.node o .read object
  | .property _ key value computed => do
      w.nodeIf computed o key
      w.node o .read value
  | .binary .assignment target _ value => do
      w.node o .write target
      w.node o .read value
  | .unary _ operator argument =>
      w.node o (if operator.isUpdate then .write else .read) argument
  | .call .call callee arguments _ _ => do
      w.node o .call callee
      w.nodes o arguments
  | .iteration _ target subject statement _ => do
      w.node o .write target
      w.nodes o [subject, statement]
  | _ => w.children o n

/-- A target other than a name or a pattern is an expression such as `a.b`. -/
def resolvePattern (o : Outlook) (kind : Option ReferenceKind) (i : NodeId) (n : Node Slot) :
    m Unit :=
  match n with
  | .name .identifier text =>
      match kind with
      | some kind => modifyThe Bindings fun b => b.addReference o.scope o.inWith kind text i
      | none => modifyThe Bindings fun b => b.markDynamic o.inWith (some i)
  | .list .objectPattern elements | .list .arrayPattern elements =>
      elements.forM (w.pattern o kind)
  | .property _ key value computed => do
      w.nodeIf computed o key
      w.pattern o kind value
  | .binary .default target _ value => do
      w.pattern o kind target
      w.node o .read value
  | .operand .rest target => w.pattern o kind target
  | .bare .omitted => pure ()
  | _ => w.node o (kind.getD .read) (some i)

def cut : ResolutionWalk m where
  node _ _ _ := modifyThe Bindings Bindings.truncate
  pattern _ _ _ := modifyThe Bindings Bindings.truncate

/-- The walk over everything that lies at most `depth` levels deep. -/
def ofDepth (visit : Visit m) (f : Forest) : (depth : Nat) → ResolutionWalk m
  | 0 => cut
  | depth + 1 =>
      let w := ofDepth visit f depth
      { node := fun o kind s => do
          match s, f.node? s with
          | some i, some n =>
              visit o.scope i
              let scope := ((← getThe Bindings).opened[i]?).getD o.scope
              w.resolveNode { o with scope := scope } kind i n
          | _, _ => pure ()
        pattern := fun o kind s => do
          match s, f.node? s with
          | some i, some n =>
              visit o.scope i
              w.resolvePattern o kind i n
          | _, _ => pure () }

end ResolutionWalk

namespace Bindings

/-- Both walks over the tree below a root. -/
def walkTree {m : Type → Type} [Monad m] [MonadStateOf Bindings m] (declared resolved : Visit m)
    (f : Forest) (root : Slot) : m Unit := do
  let depth := Limits.treeDepth + 1
  let program ← modifyGetThe Bindings fun b => b.openScope .program root none
  (DeclarationWalk.ofDepth declared f depth).node program root
  (ResolutionWalk.ofDepth resolved f depth).node ⟨program, false⟩ .read root

/-- The bindings of the tree below a root. -/
def ofForest (f : Forest) (root : Slot) : Bindings :=
  ((walkTree .silent .silent f root : Bind Unit).run .empty).2

end Bindings

def Program.bindings (p : Program) : Bindings :=
  .ofForest p.forest (some p.root)

end Untangle
