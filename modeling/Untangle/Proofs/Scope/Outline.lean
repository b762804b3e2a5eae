import Untangle.Scope.Resolution

/-!
# The declarations of a tree as an outline

What the walk that collects declarations does to the bindings depends on the scopes it is in, but
what it declares and where it opens scopes depends on the tree alone. An outline records just
that, nested as the scopes are, and is played on bindings.
-/

namespace Untangle

inductive Outline
  | done
  /-- Declare a name, in the scope or where a `var` declaration belongs. -/
  | declare (hoisted : Bool) (kind : BindingKind) (name : String) (nameNode declaration : NodeId)
      (rest : Outline)
  | scope (kind : ScopeKind) (node : NodeId) (inside rest : Outline)
  /-- The declarators of one statement. -/
  | vars (inside rest : Outline)
  /-- The walk gives up on a part of the tree. -/
  | cut (rest : Outline)
  deriving Repr, DecidableEq, Inhabited

namespace Outline

def append : Outline → Outline → Outline
  | done, o => o
  | declare hoisted kind name nameNode declaration rest, o =>
      declare hoisted kind name nameNode declaration (rest.append o)
  | scope kind node inside rest, o => scope kind node inside (rest.append o)
  | vars inside rest, o => vars inside (rest.append o)
  | cut rest, o => cut (rest.append o)

instance : Append Outline :=
  ⟨append⟩

def concat (outlines : List Outline) : Outline :=
  outlines.foldr append done

/-- Do what the outline says in a scope. The second scope is that of `var` declarations. -/
def play : Outline → (scope target : ScopeId) → Bindings → Bindings
  | done, _, _, b => b
  | declare hoisted kind name nameNode declaration rest, s, t, b =>
      rest.play s t (b.declare (if hoisted then t else s) kind name nameNode declaration)
  | scope kind node inside rest, s, t, b =>
      let (inner, opened) := b.openScope kind (some node) (some s)
      rest.play s t (inside.play inner inner opened)
  | vars inside rest, s, t, b => rest.play s t (inside.play s (b.hoistingScope s) b)
  | cut rest, s, t, b => rest.play s t b.truncate

/-!
## Outlines of trees
-/

end Outline

/-- How the names of a pattern are declared. -/
structure NameKind where
  hoisted : Bool
  kind : BindingKind
  deriving Repr, DecidableEq

/-- The outlines of what lies one level deeper. -/
structure Sketch where
  node : Slot → Outline
  pattern : NameKind → Option NodeId → Slot → Outline

namespace Sketch

open Outline

variable (k : Sketch)

def nodes (slots : List Slot) : Outline :=
  concat (slots.map k.node)

def children (n : Node Slot) : Outline :=
  concat ((Forest.childrenOf n).map fun i => k.node (some i))

def nameOf (f : Forest) (kind : BindingKind) (nameNode : Slot) (declaration : NodeId) : Outline :=
  match nameNode, f.identifierText? nameNode with
  | some i, some text => declare false kind text i declaration done
  | _, _ => done

def functionBody (f : Forest) (parameters : List Slot) (code : Slot) : Outline :=
  concat (parameters.map (k.pattern ⟨false, .parameter⟩ none)) ++
    match f.node? code with
    | some (.body .block statements) => k.nodes statements
    | some _ => k.node code
    | none => done

def function (f : Forest) (i : NodeId) (form : FunctionForm) (ident : Slot)
    (parameters : List Slot) (code : Slot) : Outline :=
  let around := if form == .declaration then nameOf f .function ident i else done
  let inside := if form == .expression then nameOf f .functionName ident i else done
  around ++ scope .function i (inside ++ k.functionBody f parameters code) done

def declarator (f : Forest) (kind : NameKind) (s : Slot) : Outline :=
  match s, f.node? s with
  | some i, some (.declarator name initializer) =>
      k.pattern kind (some i) name ++ k.node initializer
  | _, _ => done

def variableStatement (f : Forest) (kind : VariableKind) (declarators : List Slot) : Outline :=
  vars (concat (declarators.map (k.declarator f ⟨kind == .«var», kind.bindingKind⟩))) done

def classLike (f : Forest) (i : NodeId) (form : ClassForm) (ident : Slot) (n : Node Slot) :
    Outline :=
  let inside := nameOf f .«class» ident i ++ k.children n
  if form == .expression then scope .block i inside done else inside

def handler (f : Forest) (i : NodeId) (parameter block : Slot) : Outline :=
  let inside :=
    match f.node? block with
    | some (.body .block statements) => k.nodes statements
    | _ => done
  scope .handler i (k.pattern ⟨false, .catchParameter⟩ parameter parameter ++ inside) done

def ofNode (f : Forest) (i : NodeId) (n : Node Slot) : Outline :=
  match n with
  | .function form ident parameters code _ _ => k.function f i form ident parameters code
  | .variableStatement kind declarators => k.variableStatement f kind declarators
  | .classLike form ident _ _ => k.classLike f i form ident n
  | .body .staticBlock statements => scope .function i (k.nodes statements) done
  | .body .block statements => scope .block i (k.nodes statements) done
  | .forLoop _ _ _ _ | .iteration _ _ _ _ _ => scope .block i (k.children n) done
  | .switch subject clauses => k.node subject ++ scope .block i (k.nodes clauses) done
  | .catchClause parameter block => k.handler f i parameter block
  | _ => k.children n

def ofPattern (kind : NameKind) (declaration : Option NodeId) (i : NodeId) (n : Node Slot) :
    Outline :=
  match n with
  | .name .identifier text => declare kind.hoisted kind.kind text i (declaration.getD i) done
  | .list .objectPattern elements | .list .arrayPattern elements =>
      concat (elements.map (k.pattern kind none))
  | .property _ key value computed =>
      (if computed then k.node key else done) ++ k.pattern kind none value
  | .binary .default target _ value => k.pattern kind declaration target ++ k.node value
  | .operand .rest target => k.pattern kind none target
  | _ => done

/-- The outlines of everything that lies at most `depth` levels deep. -/
def ofDepth (f : Forest) : (depth : Nat) → Sketch
  | 0 => ⟨fun _ => cut done, fun _ _ _ => cut done⟩
  | depth + 1 =>
      let k := ofDepth f depth
      { node := fun s =>
          match s, f.node? s with
          | some i, some n => k.ofNode f i n
          | _, _ => done
        pattern := fun kind declaration s =>
          match s, f.node? s with
          | some i, some n => k.ofPattern kind declaration i n
          | _, _ => done }

theorem ofDepth_node {f : Forest} {i : NodeId} {n : Node Slot} (hn : f.node? (some i) = some n)
    (depth : Nat) : (ofDepth f (depth + 1)).node (some i) = (ofDepth f depth).ofNode f i n := by
  simp only [ofDepth, hn]

end Sketch

/-!
## Playing outlines
-/

namespace Outline

variable (o o' o'' : Outline) (s t : ScopeId) (b : Bindings)

@[simp] theorem done_append : done ++ o = o :=
  rfl

@[simp] theorem append_done : o ++ done = o := by
  induction o with
  | done => rfl
  | declare hoisted kind name nameNode declaration rest ih =>
      exact congrArg (declare hoisted kind name nameNode declaration) ih
  | scope kind node inside rest _ ih => exact congrArg (scope kind node inside) ih
  | vars inside rest _ ih => exact congrArg (vars inside) ih
  | cut rest ih => exact congrArg cut ih

theorem play_append : (o ++ o').play s t b = o'.play s t (o.play s t b) := by
  induction o generalizing b with
  | done => rfl
  | declare hoisted kind name nameNode declaration rest ih => exact ih ..
  | scope kind node inside rest _ ih => exact ih ..
  | vars inside rest _ ih => exact ih ..
  | cut rest ih => exact ih ..

theorem append_assoc : o ++ o' ++ o'' = o ++ (o' ++ o'') := by
  induction o with
  | done => rfl
  | declare hoisted kind name nameNode declaration rest ih =>
      exact congrArg (declare hoisted kind name nameNode declaration) ih
  | scope kind node inside rest _ ih => exact congrArg (scope kind node inside) ih
  | vars inside rest _ ih => exact congrArg (vars inside) ih
  | cut rest ih => exact congrArg cut ih

/-!
### What an outline declares
-/

/-- The names that are declared, as nodes. -/
def names : Outline → List NodeId
  | done => []
  | declare _ _ _ nameNode _ rest => nameNode :: rest.names
  | scope _ _ inside rest => inside.names ++ rest.names
  | vars inside rest => inside.names ++ rest.names
  | cut rest => rest.names

/-- Nothing was left out. -/
def Whole : Outline → Prop
  | done => True
  | declare _ _ _ _ _ rest => rest.Whole
  | scope _ _ inside rest => inside.Whole ∧ rest.Whole
  | vars inside rest => inside.Whole ∧ rest.Whole
  | cut _ => False

instance decidableWhole : (o : Outline) → Decidable o.Whole
  | done => isTrue trivial
  | declare _ _ _ _ _ rest => decidableWhole rest
  | scope _ _ inside rest => @instDecidableAnd _ _ (decidableWhole inside) (decidableWhole rest)
  | vars inside rest => @instDecidableAnd _ _ (decidableWhole inside) (decidableWhole rest)
  | cut _ => isFalse id

@[simp] theorem names_done : done.names = [] :=
  rfl

@[simp] theorem names_append : (o ++ o').names = o.names ++ o'.names := by
  induction o with
  | done => rfl
  | declare hoisted kind name nameNode declaration rest ih => exact congrArg (nameNode :: ·) ih
  | scope kind node inside rest _ ih =>
      exact (congrArg (inside.names ++ ·) ih).trans (List.append_assoc ..).symm
  | vars inside rest _ ih =>
      exact (congrArg (inside.names ++ ·) ih).trans (List.append_assoc ..).symm
  | cut rest ih => exact ih

@[simp] theorem names_concat (outlines : List Outline) :
    (concat outlines).names = outlines.flatMap names := by
  induction outlines with
  | nil => rfl
  | cons o outlines ih => exact (names_append ..).trans (congrArg (o.names ++ ·) ih)

@[simp] theorem whole_append : (o ++ o').Whole ↔ o.Whole ∧ o'.Whole := by
  induction o with
  | done => exact (iff_of_eq (true_and _)).symm
  | declare hoisted kind name nameNode declaration rest ih => exact ih
  | scope kind node inside rest _ ih => exact (and_congr_right' ih).trans and_assoc.symm
  | vars inside rest _ ih => exact (and_congr_right' ih).trans and_assoc.symm
  | cut rest _ => exact (iff_of_eq (false_and _)).symm

@[simp] theorem whole_concat (outlines : List Outline) :
    (concat outlines).Whole ↔ ∀ o ∈ outlines, o.Whole := by
  induction outlines with
  | nil => simp [concat, Whole]
  | cons o outlines ih =>
      rw [List.forall_mem_cons, ← ih]
      exact whole_append ..

theorem concat_append (outlines outlines' : List Outline) :
    concat (outlines ++ outlines') = concat outlines ++ concat outlines' := by
  induction outlines with
  | nil => rfl
  | cons o outlines ih => exact (congrArg (o ++ ·) ih).trans (append_assoc ..).symm

end Outline

/-- In this scope, with this one for `var` declarations, the action does what the outline says. -/
def Plays (s t : ScopeId) (act : Bind Unit) (o : Outline) : Prop :=
  ∀ ⦃b⦄, act.run b = ((), o.play s t b)

namespace Plays

variable {s t : ScopeId} {act act' : Bind Unit} {o o' : Outline}

theorem pure : Plays s t (pure ()) .done :=
  fun _ => rfl

theorem cut : Plays s t (modifyThe Bindings Bindings.truncate) (.cut .done) :=
  fun _ => rfl

theorem bind (h : Plays s t act o) (h' : Plays s t act' o') :
    Plays s t (act >>= fun _ => act') (o ++ o') := by
  intro b
  rw [Outline.play_append, ← @h']
  exact congrArg (fun r : Unit × Bindings => act'.run r.2) (@h b)

theorem forM {α : Type} {items : List α} {act : α → Bind PUnit} {o : α → Outline}
    (h : ∀ a, Plays s t (act a) (o a)) :
    Plays s t (items.forM act) (.concat (items.map o)) := by
  induction items with
  | nil => exact pure
  | cons a items ih => exact bind (h a) ih

theorem ite {c : Prop} [Decidable c] (h : Plays s t act o) (h' : Plays s t act' o') :
    Plays s t (if c then act else act') (if c then o else o') := by
  split
  · exact h
  · exact h'

/-- Open a scope and go on inside it. -/
theorem scope {kind : ScopeKind} {i : NodeId} {act : ScopeId → Bind Unit}
    (h : ∀ inner, Plays inner inner (act inner) o) :
    Plays s t (DeclarationWalk.openScope kind i s >>= act) (.scope kind i o .done) :=
  fun b => @h (b.openScope kind (some i) (some s)).1 (b.openScope kind (some i) (some s)).2

end Plays

namespace DeclarationWalk

/-- The outlines say what the walk does one level deeper. -/
structure Sketched (w : DeclarationWalk Bind) (k : Sketch) : Prop where
  node : ∀ s t slot, Plays s t (w.node s slot) (k.node slot)
  pattern : ∀ s t (names : NameKind) declaration slot,
    Plays s t (w.pattern ⟨if names.hoisted then t else s, s, names.kind⟩ declaration slot)
      (k.pattern names declaration slot)

variable {w : DeclarationWalk Bind} {k : Sketch} {s t : ScopeId}

theorem plays_declareName (f : Forest) (kind : BindingKind) (nameNode : Slot)
    (declaration : NodeId) :
    Plays s t (declareName f s kind nameNode declaration)
      (Sketch.nameOf f kind nameNode declaration) := by
  unfold declareName Sketch.nameOf
  cases nameNode with
  | none => exact .pure
  | some i =>
      cases f.identifierText? (some i) with
      | none => exact .pure
      | some text => exact fun _ => rfl

theorem Sketched.nodes (h : Sketched w k) (slots : List Slot) :
    Plays s t (w.nodes s slots) (k.nodes slots) :=
  .forM fun slot => h.node s t slot

theorem Sketched.children (h : Sketched w k) (n : Node Slot) :
    Plays s t (w.children s n) (k.children n) :=
  .forM fun i => h.node s t (some i)

/-- A pattern whose names belong to the scope that the walk is in. -/
theorem Sketched.patternHere (h : Sketched w k) (kind : BindingKind) (declaration : Option NodeId)
    (slot : Slot) :
    Plays s t (w.pattern ⟨s, s, kind⟩ declaration slot)
      (k.pattern ⟨false, kind⟩ declaration slot) :=
  h.pattern s t ⟨false, kind⟩ declaration slot

theorem Sketched.functionBody (h : Sketched w k) (f : Forest) (parameters : List Slot)
    (code : Slot) :
    Plays s t (w.functionBody f s parameters code) (k.functionBody f parameters code) := by
  refine .bind (.forM fun slot => h.patternHere ..) ?_
  cases f.node? code with
  | none => exact .pure
  | some n =>
      cases n with
      | body form statements =>
          cases form with
          | block => exact h.nodes statements
          | _ => exact h.node s t code
      | _ => exact h.node s t code

theorem Sketched.function (h : Sketched w k) (f : Forest) (i : NodeId) (form : FunctionForm)
    (ident : Slot) (parameters : List Slot) (code : Slot) :
    Plays s t (w.function f s i form ident parameters code)
      (k.function f i form ident parameters code) := by
  cases form with
  | declaration =>
      exact .bind (plays_declareName ..) (.scope fun _ => h.functionBody ..)
  | expression =>
      exact .scope fun _ => .bind (plays_declareName ..) (h.functionBody ..)
  | arrow => exact .scope fun _ => h.functionBody ..

theorem Sketched.declarators (h : Sketched w k) (f : Forest) (kind : VariableKind)
    (declarators : List Slot) :
    Plays s t
      (declarators.forM fun slot =>
        match slot, f.node? slot with
        | some i, some (.declarator name initializer) => do
            w.pattern ⟨if kind == .«var» then t else s, s, kind.bindingKind⟩ (some i) name
            w.node s initializer
        | _, _ => pure ())
      (.concat (declarators.map (k.declarator f ⟨kind == .«var», kind.bindingKind⟩))) := by
  refine .forM fun slot => ?_
  unfold Sketch.declarator
  split
  · exact .bind (h.pattern s t ⟨kind == .«var», kind.bindingKind⟩ ..) (h.node ..)
  · exact .pure

theorem Sketched.variableStatement (h : Sketched w k) (f : Forest) (kind : VariableKind)
    (declarators : List Slot) :
    Plays s t (w.variableStatement f s kind declarators)
      (k.variableStatement f kind declarators) := by
  -- Which scope a `var` declaration belongs to is looked up once, whatever the answer.
  have hlook : ∀ (look : Bindings → ScopeId) b,
      (do
        let bindings ← getThe Bindings
        declarators.forM fun slot =>
          match slot, f.node? slot with
          | some i, some (.declarator name initializer) => do
              w.pattern ⟨if kind == .«var» then look bindings else s, s, kind.bindingKind⟩
                (some i) name
              w.node s initializer
          | _, _ => pure () : Bind Unit).run b =
      ((), (Outline.concat (declarators.map
        (k.declarator f ⟨kind == .«var», kind.bindingKind⟩))).play s (look b) b) :=
    fun look b => @Sketched.declarators w k s (look b) h f kind declarators b
  exact hlook (·.hoistingScope s)

theorem Sketched.classLike (h : Sketched w k) (f : Forest) (i : NodeId) (form : ClassForm)
    (ident : Slot) (n : Node Slot) :
    Plays s t (w.classLike f s i form ident n) (k.classLike f i form ident n) := by
  cases form with
  | declaration => exact .bind (plays_declareName ..) (h.children n)
  | expression => exact .scope fun _ => .bind (plays_declareName ..) (h.children n)

theorem Sketched.handler (h : Sketched w k) (f : Forest) (i : NodeId) (parameter block : Slot) :
    Plays s t (w.handler f s i parameter block) (k.handler f i parameter block) := by
  refine .scope fun inner => .bind (h.patternHere ..) ?_
  cases f.node? block with
  | none => exact .pure
  | some n =>
      cases n with
      | body form statements => 
          cases form with
          | block => exact h.nodes statements
          | _ => exact .pure
      | _ => exact .pure

theorem Sketched.declareNode (h : Sketched w k) (f : Forest) (i : NodeId) (n : Node Slot) :
    Plays s t (w.declareNode f s i n) (k.ofNode f i n) := by
  unfold DeclarationWalk.declareNode
  split
  · exact h.function ..
  · exact h.variableStatement ..
  · exact h.classLike ..
  · exact .scope fun _ => h.nodes _
  · exact .scope fun _ => h.nodes _
  · exact .scope fun _ => h.children _
  · exact .scope fun _ => h.children _
  · exact .bind (h.node ..) (.scope fun _ => h.nodes _)
  · exact h.handler ..
  · rw [Sketch.ofNode]
    · exact h.children n
    all_goals assumption

theorem Sketched.declarePattern (h : Sketched w k) (names : NameKind)
    (declaration : Option NodeId) (i : NodeId) (n : Node Slot) :
    Plays s t
      (w.declarePattern ⟨if names.hoisted then t else s, s, names.kind⟩ declaration i n)
      (k.ofPattern names declaration i n) := by
  unfold DeclarationWalk.declarePattern
  split
  · exact fun _ => rfl
  · exact .forM fun slot => h.pattern ..
  · exact .forM fun slot => h.pattern ..
  · rename_i kind key value computed
    cases computed with
    | true => exact .bind (h.node ..) (h.pattern ..)
    | false => exact h.pattern ..
  · exact .bind (h.pattern ..) (h.node ..)
  · exact h.pattern ..
  · rw [Sketch.ofPattern]
    · exact .pure
    all_goals assumption

/-- The walk that collects declarations plays the outline of the tree. -/
theorem sketched_ofDepth (f : Forest) (depth : Nat) :
    Sketched (ofDepth .silent f depth) (Sketch.ofDepth f depth) := by
  induction depth with
  | zero => exact ⟨fun _ _ _ _ => rfl, fun _ _ _ _ _ _ => rfl⟩
  | succ depth ih =>
      constructor
      · intro s t slot
        unfold ofDepth Sketch.ofDepth
        cases slot with
        | none => exact .pure
        | some i =>
            cases hn : f.node? (some i) with
            | none => simpa only [hn] using .pure
            | some n => 
                simp only [hn]
                exact .bind .pure (ih.declareNode f i n)
      · intro s t names declaration slot
        unfold ofDepth Sketch.ofDepth
        cases slot with
        | none => exact .pure
        | some i =>
            cases hn : f.node? (some i) with
            | none => simpa only [hn] using .pure
            | some n => 
                simp only [hn]
                exact .bind .pure (ih.declarePattern names declaration i n)

end DeclarationWalk

/-!
## What playing does to the bindings
-/

namespace Bindings

variable (b : Bindings)

@[simp] theorem truncated_declare (scope : ScopeId) (kind : BindingKind) (name : String)
    (nameNode declaration : NodeId) :
    (b.declare scope kind name nameNode declaration).truncated = b.truncated := by
  unfold declare
  extract_lets reused
  cases reused <;> rfl

theorem resolved_declare (scope : ScopeId) (kind : BindingKind) (name : String)
    (nameNode declaration : NodeId) {i : NodeId} (hi : i ≠ nameNode) :
    (b.declare scope kind name nameNode declaration).resolved[i]? = b.resolved[i]? := by
  unfold declare
  extract_lets reused
  cases reused <;> simp [attach, modifyBinding, Std.HashMap.getElem?_insert, Ne.symm hi]

end Bindings

namespace Outline

variable (o : Outline) (s t : ScopeId) (b : Bindings)

theorem truncated_play : (o.play s t b).truncated = false ↔ b.truncated = false ∧ o.Whole := by
  induction o generalizing s t b with
  | done => simp [play, Whole]
  | declare hoisted kind name nameNode declaration rest ih => simp [play, ih, Whole]
  | scope kind node inside rest ih ih' => simp [play, ih, ih', Whole, Bindings.openScope, and_assoc]
  | vars inside rest ih ih' => simp [play, ih, ih', Whole, and_assoc]
  | cut rest ih => simp [play, ih, Whole, Bindings.truncate]

/-- Only the names that are declared get resolved. -/
theorem resolved_play {i : NodeId} (hi : i ∉ o.names) :
    (o.play s t b).resolved[i]? = b.resolved[i]? := by
  induction o generalizing s t b with
  | done => rfl
  | declare hoisted kind name nameNode declaration rest ih =>
      rw [names, List.mem_cons, not_or] at hi
      exact (ih _ _ _ hi.2).trans (b.resolved_declare _ _ _ _ _ hi.1)
  | scope kind node inside rest ih ih' =>
      rw [names, List.mem_append, not_or] at hi
      exact (ih' _ _ _ hi.2).trans (ih _ _ _ hi.1)
  | vars inside rest ih ih' =>
      rw [names, List.mem_append, not_or] at hi
      exact (ih' _ _ _ hi.2).trans (ih _ _ _ hi.1)
  | cut rest ih => exact ih _ _ _ hi

end Outline
end Untangle
