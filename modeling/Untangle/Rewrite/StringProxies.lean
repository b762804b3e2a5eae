import Untangle.Rewrite.Basic
import Untangle.Rewrite.Shape

/-!
# Calls of statement proxies

A statement proxy is a function whose body is one expression statement. A call statement is
replaced by that expression, with copies of the arguments in place of the parameters, provided
that every other name means the same at the call as inside the function.
-/

namespace Untangle

/-- A function `(parameters) { expression; }`. -/
structure StatementProxy where
  declaration : NodeId
  expression : Slot
  parameters : List BindingId
  /-- The names in the expression that are not parameters, and what they mean there. -/
  freeNames : List (String × Option BindingId)
  deriving Repr, DecidableEq, Inhabited

namespace StatementProxy

/-!
## Recognition
-/

/-- What a node contributes to the free names of a proxy. -/
inductive Contribution
  /-- The expression cannot be moved out of the function. -/
  | immovable
  | nothing
  | freeName (name : String) (binding : Option BindingId)

/-- Expressions whose meaning depends on the function around them, and nested functions. -/
def isTiedToFunction : Node Slot → Bool
  | .bare .this | .bare .super | .bare .newTarget => true
  | .yield _ _ | .operand .await _ => true
  | .function .expression _ _ _ _ _ | .function .arrow _ _ _ _ _ => true
  | .classLike .expression _ _ _ => true
  | _ => false

def contribution (f : Forest) (b : Bindings) (own : BindingId) (parameters : List BindingId)
    (i : NodeId) : Contribution :=
  match f.node? (some i) with
  | none => .immovable
  | some (.name .identifier text) =>
      if f.isReference (some i) then
        match b.resolve (some i) with
        | some binding =>
            if binding = own then .immovable
            else if parameters.contains binding then .nothing
            else .freeName text (some binding)
        | none => if text = "arguments" then .immovable else .freeName text none
      else .nothing
  | some n => if isTiedToFunction n then .immovable else .nothing

/-- The free names of an expression that can be moved. -/
def freeNames? (f : Forest) (b : Bindings) (own : BindingId) (parameters : List BindingId) :
    List NodeId → Option (List (String × Option BindingId))
  | [] => some []
  | i :: rest =>
      match contribution f b own parameters i with
      | .immovable => none
      | .nothing => freeNames? f b own parameters rest
      | .freeName name binding =>
          (freeNames? f b own parameters rest).map ((name, binding) :: ·)

/-- The binding of a parameter that is a name and is never written. -/
def parameter? (b : Bindings) (s : Slot) : Option BindingId := do
  let i ← b.ofDeclaration s
  let binding ← b.binding? i
  guard (binding.isStable && !binding.hasWrites)
  return i

def ofBinding? (f : Forest) (b : Bindings) (own : BindingId) (binding : Binding) :
    Option StatementProxy := do
  guard (binding.kind == .function && binding.isStable && !binding.hasWrites)
  match f.node? (some binding.declaration) with
  | some (.function .declaration _ parameters code _ _) =>
      let expression ← f.soleExpression? code
      let parameters ← parameters.mapM (parameter? b)
      let names ← freeNames? f b own parameters (f.preorder expression)
      return ⟨binding.declaration, expression, parameters, names⟩
  | _ => none

/-- The proxies of a tree by the bindings of their names. -/
def all (f : Forest) (b : Bindings) : Array (Option StatementProxy) :=
  b.bindings.mapIdx fun i binding => ofBinding? f b i binding

/-- The proxy that a call calls. -/
def ofCall? (proxies : Array (Option StatementProxy)) (b : Bindings) (callee : Slot) :
    Option StatementProxy := do
  (← proxies[← b.resolve callee]?)

/-- The expression calls a proxy itself. -/
def callsProxy (p : StatementProxy) (proxies : Array (Option StatementProxy)) (f : Forest)
    (b : Bindings) : Bool :=
  (f.preorder p.expression).any fun i =>
    match f.node? (some i) with
    | some (.call .call callee _ _ _) => (ofCall? proxies b callee).isSome
    | _ => false

/-- Proxies that call proxies wait until those calls have been replaced. -/
def ready (f : Forest) (b : Bindings) : Array (Option StatementProxy) :=
  let proxies := all f b
  proxies.map fun proxy => proxy.filter fun p => !p.callsProxy proxies f b

/-!
## Instantiation
-/

/-- Copying a literal or a name has no effect. -/
def isCopyable (f : Forest) (s : Slot) : Bool :=
  f.satisfies s fun n => n.isLiteral || n.identifierText?.isSome

/-- The call may be replaced by the expression of the proxy. -/
def canInline (p : StatementProxy) (f : Forest) (b : Bindings) (call : NodeId)
    (args : List Slot) : Bool :=
  let isStatement := f.satisfies (f.parent (some call)) fun n =>
    match n with
    | .operand .expressionStatement _ => true
    | _ => false
  let scope := b.scopeOf f (some call)
  args.length == p.parameters.length && isStatement && args.all (isCopyable f) &&
    p.freeNames.all fun (name, binding) => b.lookup scope name == binding

/-- The argument that stands for a node of the expression. -/
def argumentAt? (p : StatementProxy) (f : Forest) (b : Bindings) (args : List Slot)
    (source : NodeId) : Option Slot := do
  let position ← p.parameters.idxOf? (← b.resolve (some source))
  guard (f.isReference (some source))
  args[position]?

/-- A node that was made to replace a call. -/
structure Replica where
  node : NodeId
  /-- The node it is a copy of. -/
  source : NodeId
  /-- The declaration of the name that the source stood for. -/
  declaration : Option NodeId
  deriving Repr, DecidableEq

def replica (b : Bindings) (source node : NodeId) : Replica :=
  ⟨node, source, (b.resolveBinding (some source)).map Binding.declaration⟩

/-- The expression that replaces a call. -/
structure Instance where
  root : Slot
  replicas : List Replica
  deriving Repr, DecidableEq

/-- Put copies of the arguments into a copy of the expression. -/
def substitute (p : StatementProxy) (b : Bindings) (args : List Slot) (copied : Slot) :
    Instance → List (NodeId × NodeId) → Edit Instance :=
  List.foldlM fun made (source, target) => do
    match ← Edit.look (p.argumentAt? · b args source) with
    | none => return made
    | some argument =>
        let value ← Edit.copy argument
        let replicas := (argument.toList.zip value.toList).map fun (source, node) =>
          replica b source node
        if some target = copied then return ⟨value, made.replicas ++ replicas⟩
        else
          let _ ← Edit.replace (some target) value
          return ⟨made.root, made.replicas ++ replicas⟩

def instantiate (p : StatementProxy) (b : Bindings) (args : List Slot) : Edit Instance := do
  let sources ← Edit.look (·.preorder p.expression)
  let copied ← Edit.copy p.expression
  let targets ← Edit.look (·.preorder copied)
  let pairs := sources.zip targets
  let replicas := pairs.map fun (source, node) => replica b source node
  p.substitute b args copied ⟨copied, replicas⟩ pairs

end StatementProxy

namespace Rewrite

/-!
## Rounds
-/

/-- The proxy and the arguments of a call that may be replaced. -/
def inlinableCall? (b : Bindings) (proxies : Array (Option StatementProxy)) (root : Slot)
    (i : NodeId) (f : Forest) : Option (StatementProxy × List Slot) := do
  guard (f.isAttached (some i) root)
  match f.node? (some i) with
  | some (.call .call callee args _ _) =>
      let proxy ← StatementProxy.ofCall? proxies b callee
      guard (proxy.canInline f b i args)
      return (proxy, args)
  | _ => none

/-- A call that was replaced. -/
structure Inlining where
  /-- The function that was called. -/
  declaration : NodeId
  replicas : List StatementProxy.Replica
  deriving Repr, DecidableEq

/-- Replace a call of a proxy. -/
def inlineStatementCall (b : Bindings) (proxies : Array (Option StatementProxy)) (root : Slot)
    (i : NodeId) : Edit (Option Inlining) := do
  match ← Edit.look (inlinableCall? b proxies root i) with
  | none => return none
  | some (proxy, args) =>
      let made ← proxy.instantiate b args
      let done ← Edit.replace (some i) made.root
      return if done then some ⟨proxy.declaration, made.replicas⟩ else none

/-- Replace every call once. -/
def inlineRound (root : Slot) : Rewrite (List Inlining) := do
  let bindings ← Rewrite.bind root
  let f ← get
  let proxies := StatementProxy.ready f bindings
  let inlined ← (f.preorder root).mapM fun i =>
    (inlineStatementCall bindings proxies root i : Edit (Option Inlining))
  return inlined.filterMap id

/-- Replace calls until no round finds any. -/
def inlineRounds (root : Slot) : (rounds : Nat) → Rewrite (List Inlining)
  | 0 => return []
  | rounds + 1 => do
      match ← inlineRound root with
      | [] => return []
      | inlined => return inlined ++ (← inlineRounds root rounds)

/-- Remove a function that nothing refers to any more. -/
def removeUnused (b : Bindings) (root : Slot) (declaration : NodeId) : Edit Unit := do
  let isUnused := (b.ofDeclaration (some declaration)).any fun i => (b.references i).isEmpty
  if (← Edit.look (·.isAttached (some declaration) root)) && isUnused then
    let _ ← Edit.remove (some declaration)

def inlineStatementProxies (root : Slot) : Rewrite Bool := do
  let inlined ← inlineRounds root Limits.rounds
  if inlined.isEmpty then return false
  else
    let bindings ← Rewrite.bind root
    let called := inlined.map Inlining.declaration
    for declaration in called.eraseDups.mergeSort do
      (removeUnused bindings root declaration : Edit Unit)
    return true

end Rewrite
end Untangle
