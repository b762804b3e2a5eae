import Untangle.Scope.Bindings

/-!
# Collecting declarations

The first walk over a tree opens every scope and declares every name, `var` and function
declarations in the scope they are hoisted to. It runs in any monad that holds the bindings, and
may report where it passes.
-/

namespace Untangle

abbrev Bind := StateM Bindings

/-- What a walk does at a node that it reaches, besides its work there. -/
abbrev Visit (m : Type → Type) := ScopeId → NodeId → m Unit

/-- Pass nodes without a report. -/
def Visit.silent {m : Type → Type} [Monad m] : Visit m :=
  fun _ _ => pure ()

/-- Where the names of a pattern are declared, and as what. -/
structure PatternScope where
  binding : ScopeId
  /-- The scope of defaults and computed keys. -/
  expression : ScopeId
  kind : BindingKind
  deriving Repr, DecidableEq

/-- The answers of a walk for the next deeper level. -/
structure DeclarationWalk (m : Type → Type) where
  node : ScopeId → Slot → m Unit
  /-- Declare the names of a pattern. A name that is the whole pattern belongs to the given
  declaration, any other name to itself. -/
  pattern : PatternScope → Option NodeId → Slot → m Unit

namespace DeclarationWalk

variable {m : Type → Type} [Monad m] [MonadStateOf Bindings m] (w : DeclarationWalk m)

def nodes (scope : ScopeId) (slots : List Slot) : m Unit :=
  slots.forM (w.node scope)

def children (scope : ScopeId) (n : Node Slot) : m Unit :=
  (Forest.childrenOf n).forM fun i => w.node scope (some i)

def openScope (kind : ScopeKind) (i : NodeId) (parent : ScopeId) : m ScopeId :=
  modifyGetThe Bindings fun b => b.openScope kind (some i) (some parent)

def declareName (f : Forest) (scope : ScopeId) (kind : BindingKind) (nameNode : Slot)
    (declaration : NodeId) : m Unit :=
  match nameNode, f.identifierText? nameNode with
  | some i, some text => modifyThe Bindings fun b => b.declare scope kind text i declaration
  | _, _ => pure ()

/-!
## Functions
-/

/-- Parameters and body share one scope. -/
def functionBody (f : Forest) (scope : ScopeId) (parameters : List Slot) (code : Slot) :
    m Unit := do
  parameters.forM (w.pattern ⟨scope, scope, .parameter⟩ none)
  match f.node? code with
  | some (.body .block statements) => w.nodes scope statements
  | some _ => w.node scope code
  | none => pure ()

/-- The name of a declaration is seen around the function, that of an expression inside it. -/
def function (f : Forest) (scope : ScopeId) (i : NodeId) (form : FunctionForm) (ident : Slot)
    (parameters : List Slot) (code : Slot) : m Unit := do
  if form == .declaration then declareName f scope .function ident i
  let inside ← openScope .function i scope
  if form == .expression then declareName f inside .functionName ident i
  w.functionBody f inside parameters code

/-!
## Declarations
-/

def variableStatement (f : Forest) (scope : ScopeId) (kind : VariableKind)
    (declarators : List Slot) : m Unit := do
  let bindings ← getThe Bindings
  let target := if kind == .«var» then bindings.hoistingScope scope else scope
  let names : PatternScope := ⟨target, scope, kind.bindingKind⟩
  declarators.forM fun s =>
    match s, f.node? s with
    | some i, some (.declarator name initializer) => do
        w.pattern names (some i) name
        w.node scope initializer
    | _, _ => pure ()

def classLike (f : Forest) (scope : ScopeId) (i : NodeId) (form : ClassForm) (ident : Slot)
    (n : Node Slot) : m Unit := do
  let inside ← if form == .expression then openScope .block i scope else pure scope
  declareName f inside .«class» ident i
  w.children inside n

/-- The block of a handler shares the scope of its parameter. -/
def handler (f : Forest) (scope : ScopeId) (i : NodeId) (parameter block : Slot) :
    m Unit := do
  let inside ← openScope .handler i scope
  w.pattern ⟨inside, inside, .catchParameter⟩ parameter parameter
  match f.node? block with
  | some (.body .block statements) => w.nodes inside statements
  | _ => pure ()

/-!
## One level
-/

def declareNode (f : Forest) (scope : ScopeId) (i : NodeId) (n : Node Slot) : m Unit :=
  match n with
  | .function form ident parameters code _ _ => w.function f scope i form ident parameters code
  | .variableStatement kind declarators => w.variableStatement f scope kind declarators
  | .classLike form ident _ _ => w.classLike f scope i form ident n
  | .body .staticBlock statements => do
      let inside ← openScope .function i scope
      w.nodes inside statements
  | .body .block statements => do
      let inside ← openScope .block i scope
      w.nodes inside statements
  | .forLoop _ _ _ _ | .iteration _ _ _ _ _ => do
      let inside ← openScope .block i scope
      w.children inside n
  | .switch subject clauses => do
      w.node scope subject
      let inside ← openScope .block i scope
      w.nodes inside clauses
  | .catchClause parameter block => w.handler f scope i parameter block
  | _ => w.children scope n

def declarePattern (names : PatternScope) (declaration : Option NodeId) (i : NodeId)
    (n : Node Slot) : m Unit :=
  match n with
  | .name .identifier text =>
      modifyThe Bindings fun b =>
        b.declare names.binding names.kind text i (declaration.getD i)
  | .list .objectPattern elements | .list .arrayPattern elements =>
      elements.forM (w.pattern names none)
  | .property _ key value computed => do
      if computed then w.node names.expression key
      w.pattern names none value
  | .binary .default target _ value => do
      w.pattern names declaration target
      w.node names.expression value
  | .operand .rest target => w.pattern names none target
  | _ => pure ()

def cut : DeclarationWalk m where
  node _ _ := modifyThe Bindings Bindings.truncate
  pattern _ _ _ := modifyThe Bindings Bindings.truncate

/-- The walk over everything that lies at most `depth` levels deep. -/
def ofDepth (visit : Visit m) (f : Forest) : (depth : Nat) → DeclarationWalk m
  | 0 => cut
  | depth + 1 =>
      let w := ofDepth visit f depth
      { node := fun scope s => do
          match s, f.node? s with
          | some i, some n =>
              visit scope i
              w.declareNode f scope i n
          | _, _ => pure ()
        pattern := fun names declaration s => do
          match s, f.node? s with
          | some i, some n =>
              visit names.expression i
              w.declarePattern names declaration i n
          | _, _ => pure () }

end DeclarationWalk
end Untangle
