import Untangle.Proofs.Tree.Subtree
import Untangle.Scope.Resolution

/-!
# Regions

Which scope a node lies in is a question about the tree: the nearest ancestor that opens a scope
decides it. The body of a function and the block of a handler open none of their own, and the
subject of a `switch` lies outside the scope that the `switch` opens.
-/

namespace Untangle

/-!
## Trails

The walks over a tree report every node that they reach together with the scope they are in when
they get there. Reports are kept beside the bindings and change nothing about them.
-/

section Trails

variable {α β : Type}

/-- A node that a walk reaches and the scope it arrives in. -/
abbrev Arrival := ScopeId × NodeId

/-- The arrivals of both walks, the latest first. -/
structure Trail where
  declared : List Arrival
  resolved : List Arrival

abbrev Tracked := StateT Trail Bind

namespace Trail

def empty : Trail :=
  ⟨[], []⟩

def declare : Visit Tracked :=
  fun s i => modifyThe Trail fun t => { t with declared := (s, i) :: t.declared }

def resolve : Visit Tracked :=
  fun s i => modifyThe Trail fun t => { t with resolved := (s, i) :: t.resolved }

end Trail

/-- Both walks with their reports. -/
def Bindings.track (f : Forest) (root : Slot) : Trail × Bindings :=
  let run := ((walkTree Trail.declare Trail.resolve f root : Tracked Unit).run .empty).run .empty
  (run.1.2, run.2)

def Bindings.trail (f : Forest) (root : Slot) : Trail :=
  (track f root).1

/-!
### Forgetting reports
-/

/-- Without its reports the first action is the second one. -/
def Erases (act : Tracked α) (plain : Bind α) : Prop :=
  ∀ ⦃t b⦄, (((act.run t).run b).1.1, ((act.run t).run b).2) = plain.run b

namespace Erases

theorem pure (a : α) : Erases (pure a) (pure a) :=
  fun _ _ => rfl

theorem bind {act : Tracked α} {plain : Bind α} {k : α → Tracked β} {k' : α → Bind β}
    (h : Erases act plain) (hk : ∀ a, Erases (k a) (k' a)) : Erases (act >>= k) (plain >>= k') := by
  intro t b
  have hrun : (plain >>= k').run b = (k' (plain.run b).1).run (plain.run b).2 := rfl
  rw [hrun, ← @h t b]
  exact @hk ((act.run t).run b).1.1 ((act.run t).run b).1.2 ((act.run t).run b).2

theorem forM {items : List α} {act : α → Tracked PUnit} {plain : α → Bind PUnit}
    (h : ∀ a, Erases (act a) (plain a)) : Erases (items.forM act) (items.forM plain) := by
  induction items with
  | nil => exact pure _
  | cons a items ih => exact bind (h a) fun _ => ih

theorem modify (change : Bindings → Bindings) :
    Erases (modifyThe Bindings change) (modifyThe Bindings change) :=
  fun _ _ => rfl

theorem modifyGet (change : Bindings → α × Bindings) :
    Erases (modifyGetThe Bindings change) (modifyGetThe Bindings change) :=
  fun _ _ => rfl

theorem get : Erases (getThe Bindings) (getThe Bindings) :=
  fun _ _ => rfl

theorem ite {c : Prop} [Decidable c] {act other : Tracked α} {plain plain' : Bind α}
    (h : Erases act plain) (hother : Erases other plain') :
    Erases (if c then act else other) (if c then plain else plain') := by
  split
  · exact h
  · exact hother

theorem declare (s : ScopeId) (i : NodeId) : Erases (Trail.declare s i) (Visit.silent s i) :=
  fun _ _ => rfl

theorem resolve (s : ScopeId) (i : NodeId) : Erases (Trail.resolve s i) (Visit.silent s i) :=
  fun _ _ => rfl

end Erases

/-!
### Declarations
-/

namespace DeclarationWalk

structure ErasesTo (w : DeclarationWalk Tracked) (plain : DeclarationWalk Bind) : Prop where
  node : ∀ scope s, Erases (w.node scope s) (plain.node scope s)
  pattern : ∀ names declaration s,
    Erases (w.pattern names declaration s) (plain.pattern names declaration s)

variable {w : DeclarationWalk Tracked} {plain : DeclarationWalk Bind}

theorem erases_openScope (kind : ScopeKind) (i : NodeId) (parent : ScopeId) :
    Erases (openScope kind i parent) (openScope kind i parent) :=
  .modifyGet _

theorem erases_declareName (f : Forest) (scope : ScopeId) (kind : BindingKind) (nameNode : Slot)
    (declaration : NodeId) :
    Erases (declareName f scope kind nameNode declaration)
      (declareName f scope kind nameNode declaration) := by
  unfold declareName
  split
  · exact .modify _
  · exact .pure _

theorem ErasesTo.functionBody (h : ErasesTo w plain) (f : Forest) (scope : ScopeId)
    (parameters : List Slot) (code : Slot) :
    Erases (w.functionBody f scope parameters code)
      (plain.functionBody f scope parameters code) := by
  refine .bind (.forM fun s => h.pattern _ _ s) fun _ => ?_
  split
  · exact .forM fun s => h.node scope s
  · exact h.node scope code
  · exact .pure _

theorem ErasesTo.function (h : ErasesTo w plain) (f : Forest) (scope : ScopeId) (i : NodeId)
    (form : FunctionForm) (ident : Slot) (parameters : List Slot) (code : Slot) :
    Erases (w.function f scope i form ident parameters code)
      (plain.function f scope i form ident parameters code) := by
  have hopen : Erases (do
      let inside ← openScope .function i scope
      if form == .expression then declareName f inside .functionName ident i
      w.functionBody f inside parameters code) (do
      let inside ← openScope .function i scope
      if form == .expression then declareName f inside .functionName ident i
      plain.functionBody f inside parameters code) := by
    refine .bind (erases_openScope ..) fun inside => .ite ?_ (h.functionBody ..)
    exact .bind (erases_declareName ..) fun _ => h.functionBody ..
  exact .ite (.bind (erases_declareName ..) fun _ => hopen) hopen

theorem ErasesTo.variableStatement (h : ErasesTo w plain) (f : Forest) (scope : ScopeId)
    (kind : VariableKind) (declarators : List Slot) :
    Erases (w.variableStatement f scope kind declarators)
      (plain.variableStatement f scope kind declarators) := by
  refine .bind .get fun b => .forM fun s => ?_
  split
  · exact .bind (h.pattern ..) fun _ => h.node ..
  · exact .pure _

theorem ErasesTo.classLike (h : ErasesTo w plain) (f : Forest) (scope : ScopeId) (i : NodeId)
    (form : ClassForm) (ident : Slot) (n : Node Slot) :
    Erases (w.classLike f scope i form ident n) (plain.classLike f scope i form ident n) := by
  have hinside : ∀ inside, Erases (do
      declareName f inside .«class» ident i
      w.children inside n) (do
      declareName f inside .«class» ident i
      plain.children inside n) := fun inside =>
    .bind (erases_declareName ..) fun _ => .forM fun c => h.node inside (some c)
  exact .ite (.bind (erases_openScope ..) hinside) (.bind (.pure scope) hinside)

theorem ErasesTo.handler (h : ErasesTo w plain) (f : Forest) (scope : ScopeId) (i : NodeId)
    (parameter block : Slot) :
    Erases (w.handler f scope i parameter block) (plain.handler f scope i parameter block) := by
  refine .bind (erases_openScope ..) fun inside => .bind (h.pattern ..) fun _ => ?_
  split
  · exact .forM fun s => h.node inside s
  · exact .pure _

theorem ErasesTo.declareNode (h : ErasesTo w plain) (f : Forest) (scope : ScopeId) (i : NodeId)
    (n : Node Slot) : Erases (w.declareNode f scope i n) (plain.declareNode f scope i n) := by
  unfold DeclarationWalk.declareNode
  split
  · exact h.function ..
  · exact h.variableStatement ..
  · exact h.classLike ..
  · exact .bind (erases_openScope ..) fun inside => .forM fun s => h.node inside s
  · exact .bind (erases_openScope ..) fun inside => .forM fun s => h.node inside s
  · exact .bind (erases_openScope ..) fun inside => .forM fun c => h.node inside (some c)
  · exact .bind (erases_openScope ..) fun inside => .forM fun c => h.node inside (some c)
  · refine .bind (h.node scope _) fun _ => .bind (erases_openScope ..) fun inside => ?_
    exact .forM fun s => h.node inside s
  · exact h.handler ..
  · exact .forM fun c => h.node scope (some c)

theorem ErasesTo.declarePattern (h : ErasesTo w plain) (names : PatternScope)
    (declaration : Option NodeId) (i : NodeId) (n : Node Slot) :
    Erases (w.declarePattern names declaration i n)
      (plain.declarePattern names declaration i n) := by
  unfold DeclarationWalk.declarePattern
  split
  · exact .modify _
  · exact .forM fun s => h.pattern ..
  · exact .forM fun s => h.pattern ..
  · exact .ite (.bind (h.node ..) fun _ => h.pattern ..) (h.pattern ..)
  · exact .bind (h.pattern ..) fun _ => h.node ..
  · exact h.pattern ..
  · exact .pure _

theorem erasesTo_ofDepth (f : Forest) (depth : Nat) :
    ErasesTo (ofDepth Trail.declare f depth) (ofDepth .silent f depth) := by
  induction depth with
  | zero => exact ⟨fun _ _ => .modify _, fun _ _ _ => .modify _⟩
  | succ depth ih =>
      constructor
      · intro scope s
        unfold ofDepth
        dsimp only
        split
        · exact .bind (.declare ..) fun _ => ih.declareNode ..
        · exact .pure _
      · intro names declaration s
        unfold ofDepth
        dsimp only
        split
        · exact .bind (.declare ..) fun _ => ih.declarePattern ..
        · exact .pure _

end DeclarationWalk

/-!
### Resolution
-/

namespace ResolutionWalk

structure ErasesTo (w : ResolutionWalk Tracked) (plain : ResolutionWalk Bind) : Prop where
  node : ∀ o kind s, Erases (w.node o kind s) (plain.node o kind s)
  pattern : ∀ o kind s, Erases (w.pattern o kind s) (plain.pattern o kind s)

variable {w : ResolutionWalk Tracked} {plain : ResolutionWalk Bind}

theorem ErasesTo.nodes (h : ErasesTo w plain) (o : Outlook) (slots : List Slot) :
    Erases (w.nodes o slots) (plain.nodes o slots) :=
  .forM fun s => h.node o .read s

theorem ErasesTo.children (h : ErasesTo w plain) (o : Outlook) (n : Node Slot) :
    Erases (w.children o n) (plain.children o n) :=
  .forM fun c => h.node o .read (some c)

theorem ErasesTo.nodeIf (h : ErasesTo w plain) (condition : Bool) (o : Outlook) (s : Slot) :
    Erases (w.nodeIf condition o s) (plain.nodeIf condition o s) :=
  .ite (h.node o .read s) (.pure _)

theorem ErasesTo.function (h : ErasesTo w plain) (o : Outlook) (form : FunctionForm)
    (ident : Slot) (parameters : List Slot) (code : Slot) :
    Erases (w.function o form ident parameters code)
      (plain.function o form ident parameters code) := by
  have hinside : Erases (do
      parameters.forM (w.pattern o none)
      w.node o .read code) (do
      parameters.forM (plain.pattern o none)
      plain.node o .read code) :=
    .bind (.forM fun s => h.pattern o none s) fun _ => h.node o .read code
  exact .ite (.bind (.modify _) fun _ => hinside) hinside

theorem ErasesTo.resolveNode (h : ErasesTo w plain) (o : Outlook) (kind : ReferenceKind)
    (i : NodeId) (n : Node Slot) :
    Erases (w.resolveNode o kind i n) (plain.resolveNode o kind i n) := by
  unfold ResolutionWalk.resolveNode
  split
  · exact .modify _
  · exact .bind (h.pattern ..) fun _ => h.node ..
  · exact h.function ..
  · exact .bind (h.pattern ..) fun _ => h.node ..
  · exact h.nodes ..
  · exact .bind (h.nodeIf ..) fun _ => h.node ..
  · exact .bind (h.nodeIf ..) fun _ => h.node ..
  · exact h.pattern ..
  · exact h.pattern ..
  · exact h.pattern ..
  · exact h.pattern ..
  · exact .bind (h.node ..) fun _ => h.node ..
  · exact h.node ..
  · exact .pure _
  · exact h.node ..
  · exact .bind (h.nodeIf ..) fun _ => h.node ..
  · exact .bind (h.node ..) fun _ => h.node ..
  · exact h.node ..
  · exact .bind (h.node ..) fun _ => h.nodes ..
  · exact .bind (h.node ..) fun _ => h.nodes ..
  · exact h.children ..

theorem ErasesTo.resolvePattern (h : ErasesTo w plain) (o : Outlook)
    (kind : Option ReferenceKind) (i : NodeId) (n : Node Slot) :
    Erases (w.resolvePattern o kind i n) (plain.resolvePattern o kind i n) := by
  unfold ResolutionWalk.resolvePattern
  split
  · split
    · exact .modify _
    · exact .modify _
  · exact .forM fun s => h.pattern ..
  · exact .forM fun s => h.pattern ..
  · exact .bind (h.nodeIf ..) fun _ => h.pattern ..
  · exact .bind (h.pattern ..) fun _ => h.node ..
  · exact h.pattern ..
  · exact .pure _
  · exact h.node ..

theorem erasesTo_ofDepth (f : Forest) (depth : Nat) :
    ErasesTo (ofDepth Trail.resolve f depth) (ofDepth .silent f depth) := by
  induction depth with
  | zero => exact ⟨fun _ _ _ => .modify _, fun _ _ _ => .modify _⟩
  | succ depth ih =>
      constructor
      · intro o kind s
        unfold ofDepth
        dsimp only
        split
        · refine .bind (.resolve ..) fun _ => .bind .get fun b => ?_
          exact ih.resolveNode ..
        · exact .pure _
      · intro o kind s
        unfold ofDepth
        dsimp only
        split
        · exact .bind (.resolve ..) fun _ => ih.resolvePattern ..
        · exact .pure _

end ResolutionWalk

namespace Bindings

/-- Tracking the walks leaves the bindings of a tree as they are. -/
theorem track_snd (f : Forest) (root : Slot) : (track f root).2 = ofForest f root := by
  have h : Erases (walkTree Trail.declare Trail.resolve f root)
      (walkTree .silent .silent f root) := by
    refine .bind (.modifyGet _) fun program => ?_
    refine .bind ((DeclarationWalk.erasesTo_ofDepth f _).node ..) fun _ => ?_
    exact (ResolutionWalk.erasesTo_ofDepth f _).node ..
  exact congrArg Prod.snd (@h .empty .empty)

end Bindings

end Trails

/-!
## Scopes of nodes
-/

/-- Nodes of a kind that opens a scope. -/
def Node.opensScope {α : Type} : Node α → Bool
  | .function _ _ _ _ _ _ => true
  | .classLike .expression _ _ _ => true
  | .body .staticBlock _ => true
  | .body .block _ => true
  | .forLoop _ _ _ _ => true
  | .iteration _ _ _ _ _ => true
  | .switch _ _ => true
  | .catchClause _ _ => true
  | _ => false

/-- Nodes with a block that shares their scope. -/
def Node.sharesScope {α : Type} : Node α → Bool
  | .function _ _ _ _ _ _ => true
  | .catchClause _ _ => true
  | _ => false

/-- What the clauses of a `switch` are compared with. -/
def Node.subject : Node Slot → Slot
  | .switch subject _ => subject
  | _ => none

theorem Node.kinds_of_opensScope {n : Node Slot} (h : n.opensScope = false) :
    n.sharesScope = false ∧ n.subject = none := by
  cases n with
  | function _ _ _ _ _ _ => cases h
  | catchClause _ _ => cases h
  | switch _ _ => cases h
  | _ => exact ⟨rfl, rfl⟩

namespace Forest

variable {f : Forest} {i p q : NodeId} {n : Node Slot}

/-!
## Scopes in the tree
-/

/-- A block that shares the scope of its parent. -/
inductive SharesScope (f : Forest) (i p : NodeId) : Prop
  | body {form : FunctionForm} {name : Slot} {parameters statements : List Slot}
      {isAsync isGenerator : Bool}
      (hp : f.node? (some p) =
        some (.function form name parameters (some i) isAsync isGenerator))
      (hi : f.node? (some i) = some (.body .block statements))
  | handler {binding : Slot} (hp : f.node? (some p) = some (.catchClause binding (some i)))

/-- A node that opens a scope for what is inside it. -/
structure Opener (f : Forest) (i : NodeId) : Prop where
  kind : ∃ n, f.node? (some i) = some n ∧ n.opensScope
  alone : ∀ p, ¬ f.SharesScope i p

/-- The first node is the subject of the `switch` that is the second. -/
def Subject (f : Forest) (i p : NodeId) : Prop :=
  ∃ clauses, f.node? (some p) = some (.switch (some i) clauses)

theorem subject_iff : f.Subject i p ↔ (f.node? (some p)).bind Node.subject = some i := by
  constructor
  · rintro ⟨clauses, hp⟩
    rw [hp]
    rfl
  · intro h
    rcases Option.bind_eq_some_iff.mp h with ⟨n, hp, hn⟩
    cases n with
    | switch subject clauses =>
        obtain rfl : subject = some i := hn
        exact ⟨clauses, hp⟩
    | _ => cases hn

instance (f : Forest) (i p : NodeId) : Decidable (f.Subject i p) :=
  decidable_of_iff' _ subject_iff

theorem WellFormed.link_of_subject (h : f.WellFormed) (hi : f.Subject i p) : f.Link i p := by
  rcases hi with ⟨clauses, hp⟩
  exact h.link_of_slot hp (by simp [Node.slots])

theorem WellFormed.link_of_sharesScope (h : f.WellFormed) (hi : f.SharesScope i p) :
    f.Link i p := by
  cases hi with
  | body hp _ => exact h.link_of_slot hp (by simp [Node.slots])
  | handler hp => exact h.link_of_slot hp (by simp [Node.slots])

/-- A parent other than a `switch` has no subject. -/
theorem WellFormed.not_subject_of_slot (h : f.WellFormed) (hp : f.node? (some p) = some n)
    (hn : n.subject = none) (hi : some i ∈ n.slots) (q : NodeId) : ¬ f.Subject i q := by
  intro hsubject
  obtain rfl := Link.unique (h.link_of_slot hp hi) (h.link_of_subject hsubject)
  rw [subject_iff, hp] at hsubject
  cases hn.symm.trans hsubject

/-- The children of a node that is neither a function nor a handler have scopes of their own. -/
theorem WellFormed.not_sharesScope_of_slot (h : f.WellFormed) (hp : f.node? (some p) = some n)
    (hn : n.sharesScope = false) (hi : some i ∈ n.slots) (q : NodeId) : ¬ f.SharesScope i q := by
  intro hshares
  obtain rfl := Link.unique (h.link_of_slot hp hi) (h.link_of_sharesScope hshares)
  cases hshares with
  | body hq _ =>
      obtain rfl := Option.some.inj (hp.symm.trans hq)
      cases hn
  | handler hq =>
      obtain rfl := Option.some.inj (hp.symm.trans hq)
      cases hn

theorem not_opener_of_kind (hn : f.node? (some i) = some n) (hkind : n.opensScope = false) :
    ¬ f.Opener i := by
  rintro ⟨⟨m, hm, hopens⟩, _⟩
  obtain rfl := Option.some.inj (hn.symm.trans hm)
  rw [hkind] at hopens
  cases hopens

theorem not_opener_of_sharesScope (h : f.SharesScope i p) : ¬ f.Opener i :=
  fun hopener => hopener.alone p h

end Forest

/-!
## Scopes in the bindings
-/

namespace Bindings

variable {b b' : Bindings} {s t x y : ScopeId}

/-- A scope, other than that of the program, which the node opens. -/
def OpenedBy (b : Bindings) (x : ScopeId) (p : NodeId) : Prop :=
  0 < x ∧ (b.scope? x).bind Scope.node = some p

/-- The second bindings have all scopes of the first, and maybe more. -/
def Extends (b b' : Bindings) : Prop :=
  b.scopes.toList <+: b'.scopes.toList

theorem Extends.refl (b : Bindings) : b.Extends b :=
  List.prefix_refl _

theorem Extends.trans {b'' : Bindings} (h : b.Extends b') (h' : b'.Extends b'') :
    b.Extends b'' :=
  List.IsPrefix.trans h h'

theorem Extends.scope? (h : b.Extends b') {scope : Scope} (hx : b.scope? x = some scope) :
    b'.scope? x = some scope := by
  rcases h with ⟨more, hmore⟩
  rw [Bindings.scope?, ← Array.getElem?_toList] at hx ⊢
  rw [← hmore, List.getElem?_append_left]
  · exact hx
  · exact (List.getElem?_eq_some_iff.mp hx).1

theorem Extends.openedBy {p : NodeId} (h : b.Extends b') (hx : b.OpenedBy x p) :
    b'.OpenedBy x p := by
  rcases hx with ⟨hpos, hnode⟩
  rw [Option.bind_eq_some_iff] at hnode
  rcases hnode with ⟨scope, hscope, hp⟩
  exact ⟨hpos, by rw [h.scope? hscope]; exact hp⟩

theorem scope?_openScope (kind : ScopeKind) (node : Slot) (parent : Option ScopeId) :
    (b.openScope kind node parent).2.scope? x =
      if x = b.scopes.size then some ⟨kind, node, parent⟩ else b.scope? x := by
  simp [Bindings.openScope, Bindings.scope?, Array.getElem?_push]

theorem opened_openScope (kind : ScopeKind) (i p : NodeId) (parent : Option ScopeId) :
    (b.openScope kind (some i) parent).2.opened[p]? =
      if i = p then some b.scopes.size else b.opened[p]? := by
  simp [Bindings.openScope, Std.HashMap.getElem?_insert]

theorem extends_openScope (b : Bindings) (kind : ScopeKind) (node : Slot)
    (parent : Option ScopeId) : b.Extends (b.openScope kind node parent).2 :=
  ⟨[⟨kind, node, parent⟩], by simp [Bindings.openScope]⟩

/-- Neither the scopes nor what is found at a node differ. -/
structure SameScopes (b b' : Bindings) : Prop where
  scopes : b'.scopes = b.scopes
  opened : b'.opened = b.opened

theorem SameScopes.scope? (h : b.SameScopes b') : b'.scope? x = b.scope? x := by
  rw [Bindings.scope?, h.scopes, Bindings.scope?]

theorem SameScopes.extends (h : b.SameScopes b') : b.Extends b' := by
  rw [Extends, h.scopes]

theorem SameScopes.openedBy {p : NodeId} (h : b.SameScopes b') :
    b'.OpenedBy x p ↔ b.OpenedBy x p := by
  rw [OpenedBy, h.scope?, OpenedBy]

theorem sameScopes_declare (scope : ScopeId) (kind : BindingKind) (name : String)
    (nameNode declaration : NodeId) :
    b.SameScopes (b.declare scope kind name nameNode declaration) := by
  unfold Bindings.declare
  extract_lets reused
  cases reused <;> exact ⟨rfl, rfl⟩

/-- A walk that opens the scopes of a tree is in the second argument's scope when it gets to the
first argument. -/
inductive Arrives (f : Forest) (root : NodeId) (b : Bindings) : NodeId → ScopeId → Prop
  | root : Arrives f root b root programScope
  | inside {i p : NodeId} {x : ScopeId} (hlink : f.Link i p) (hsubject : ¬ f.Subject i p)
      (hp : f.Opener p) (hx : b.OpenedBy x p) : Arrives f root b i x
  | around {i p : NodeId} {s : ScopeId} (hlink : f.Link i p) (hsubject : ¬ f.Subject i p)
      (hp : ¬ f.Opener p) (h : Arrives f root b p s) : Arrives f root b i s
  | subject {i p : NodeId} {s : ScopeId} (hsubject : f.Subject i p)
      (h : Arrives f root b p s) : Arrives f root b i s

theorem Arrives.extend {f : Forest} {root i : NodeId} (hb : b.Extends b')
    (h : Arrives f root b i s) : Arrives f root b' i s := by
  induction h with
  | root => exact .root
  | inside hlink hsubject hp hx => exact .inside hlink hsubject hp (hb.openedBy hx)
  | around hlink hsubject hp _ ih => exact .around hlink hsubject hp ih
  | subject hsubject _ ih => exact .subject hsubject ih

section Children

variable {f : Forest} {root c p : NodeId} {n : Node Slot}

/-- The children of a node that opens no scope lie in the same region. -/
theorem Arrives.child (hf : f.WellFormed) (h : Arrives f root b p s)
    (hp : f.node? (some p) = some n) (hkind : n.opensScope = false) (hc : some c ∈ n.slots) :
    Arrives f root b c s := by
  rcases Node.kinds_of_opensScope hkind with ⟨_, hsubject⟩
  exact .around (hf.link_of_slot hp hc) (hf.not_subject_of_slot hp hsubject hc p)
    (Forest.not_opener_of_kind hp hkind) h

/-- The children of a node that opens a scope lie inside it. -/
theorem Arrives.inChild (hf : f.WellFormed) (hopener : f.Opener p) (hx : b.OpenedBy x p)
    (hp : f.node? (some p) = some n) (hn : n.subject = none)
    (hc : some c ∈ n.slots) : Arrives f root b c x :=
  .inside (hf.link_of_slot hp hc) (hf.not_subject_of_slot hp hn hc p) hopener hx

/-- The statements of a block that shares the scope of its parent lie in that scope. -/
theorem Arrives.inShared {i : NodeId} {statements : List Slot} (hf : f.WellFormed)
    (hopener : f.Opener p) (hx : b.OpenedBy x p) (hi : f.SharesScope i p)
    (hblock : f.node? (some i) = some (.body .block statements)) (hc : some c ∈ statements) :
    Arrives f root b c x := by
  have hlink := hf.link_of_sharesScope hi
  have hparent : ¬ f.Subject i p := by
    rintro ⟨clauses, hp⟩
    cases hi with
    | body hq _ => cases hp.symm.trans hq
    | handler hq => cases hp.symm.trans hq
  have hnot : ∀ q, ¬ f.Subject c q :=
    hf.not_subject_of_slot hblock rfl hc
  exact .around (hf.link_of_slot hblock hc) (hnot i) (Forest.not_opener_of_sharesScope hi)
    (.inside hlink hparent hopener hx)

end Children

end Bindings

end Untangle
