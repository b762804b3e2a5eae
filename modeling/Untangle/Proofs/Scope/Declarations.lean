import Untangle.Proofs.Scope.Registry

/-!
# Declarations of a tree

The declarations that the first walk makes, in its order. A declared name stands for the binding
that its declaration made, or for the one that its scope already had. Two bindings of one name in
one scope are the name of a function expression and a parameter of it.
-/

namespace Untangle

open Forest

variable {f : Forest} {root x : NodeId}

/-- One declaration of a name. -/
structure Declaration where
  scope : ScopeId
  kind : BindingKind
  name : String
  nameNode : NodeId
  declaration : NodeId
  deriving Repr, DecidableEq

namespace Outline

/-- The declarations that are made when the outline is played. -/
def made : Outline → (scope target : ScopeId) → Bindings → List Declaration
  | done, _, _, _ => []
  | declare hoisted kind name nameNode declaration rest, s, t, b =>
      let scope := if hoisted then t else s
      ⟨scope, kind, name, nameNode, declaration⟩ ::
        rest.made s t (b.declare scope kind name nameNode declaration)
  | scope kind node inside rest, s, t, b =>
      let (inner, opened) := b.openScope kind (some node) (some s)
      inside.made inner inner opened ++ rest.made s t (inside.play inner inner opened)
  | vars inside rest, s, t, b =>
      inside.made s (b.hoistingScope s) b ++ rest.made s t (inside.play s (b.hoistingScope s) b)
  | cut rest, s, t, b => rest.made s t b.truncate

/-!
## Own names and parameters
-/

end Outline

/-- The node is a function expression with this name. -/
def Forest.OwnName (f : Forest) (i nameNode : NodeId) : Prop :=
  ∃ parameters code isAsync isGenerator,
    f.node? (some i) =
      some (.function .expression (some nameNode) parameters code isAsync isGenerator)

/-- The node lies in a parameter of a function. -/
def Forest.InParameter (f : Forest) (i w : NodeId) : Prop :=
  ∃ form ident parameters code isAsync isGenerator,
    f.node? (some i) = some (.function form ident parameters code isAsync isGenerator) ∧
      ∃ r, some r ∈ parameters ∧ f.Within w r

theorem Forest.InParameter.child {i w c : NodeId} (h : f.InParameter i w) (hlink : f.Link c w) :
    f.InParameter i c := by
  rcases h with ⟨form, ident, parameters, code, isAsync, isGenerator, hn, r, hr, hw⟩
  exact ⟨form, ident, parameters, code, isAsync, isGenerator, hn, r, hr, .head hlink hw⟩

namespace Outline

/-- Names are declared as they are spelled, and what is declared as the name of a function
expression or as a parameter belongs to the function that opened the scope. -/
def Owned (f : Forest) : Outline → NodeId → Prop
  | done, _ => True
  | declare hoisted kind name nameNode declaration rest, x =>
      f.node? (some nameNode) = some (.name .identifier name) ∧
        (kind = .functionName → hoisted = false ∧ declaration = x ∧ f.OwnName x nameNode) ∧
        (kind = .parameter → hoisted = false ∧ f.InParameter x nameNode) ∧ rest.Owned f x
  | scope _ node inside rest, x => inside.Owned f node ∧ rest.Owned f x
  | vars inside rest, x => inside.Owned f x ∧ rest.Owned f x
  | cut rest, x => rest.Owned f x

namespace Owned

variable {o o' : Outline}

theorem append (h : o.Owned f x) (h' : o'.Owned f x) : (o ++ o').Owned f x := by
  induction o with
  | done => exact h'
  | declare hoisted kind name nameNode declaration rest ih =>
      exact ⟨h.1, h.2.1, h.2.2.1, ih h.2.2.2⟩
  | scope kind node inside rest _ ih => exact ⟨h.1, ih h.2⟩
  | vars inside rest _ ih => exact ⟨h.1, ih h.2⟩
  | cut rest ih => exact ih h

theorem concat {α : Type} {items : List α} {o : α → Outline}
    (h : ∀ a ∈ items, (o a).Owned f x) : (Outline.concat (items.map o)).Owned f x := by
  induction items with
  | nil => trivial
  | cons a items ih =>
      rw [List.forall_mem_cons] at h
      exact append h.1 (ih h.2)

theorem ite {c : Prop} [Decidable c] (h : o.Owned f x) (h' : o'.Owned f x) :
    (if c then o else o').Owned f x := by
  split
  · exact h
  · exact h'

/-- What is made of an outline is spelled as its name. -/
theorem node_of_made {s t : ScopeId} {b : Bindings} {d : Declaration} (h : o.Owned f x)
    (hd : d ∈ o.made s t b) : f.node? (some d.nameNode) = some (.name .identifier d.name) := by
  induction o generalizing s t b x with
  | done => cases hd
  | declare hoisted kind name nameNode declaration rest ih =>
      rcases List.mem_cons.mp hd with rfl | hd
      · exact h.1
      · exact ih h.2.2.2 hd
  | scope kind node inside rest ih ih' =>
      rcases List.mem_append.mp hd with hd | hd
      · exact ih h.1 hd
      · exact ih' h.2 hd
  | vars inside rest ih ih' =>
      rcases List.mem_append.mp hd with hd | hd
      · exact ih h.1 hd
      · exact ih' h.2 hd
  | cut rest ih => exact ih h hd

theorem nameOf {kind : BindingKind} {s : Slot} {declaration : NodeId}
    (hname : kind = .functionName → declaration = x ∧ ∀ i, s = some i → f.OwnName x i)
    (hkind : kind ≠ .parameter) : (Sketch.nameOf f kind s declaration).Owned f x := by
  unfold Sketch.nameOf
  split
  · rename_i i text htext
    refine ⟨?_, fun h => ⟨rfl, (hname h).1, (hname h).2 i rfl⟩, fun h => absurd h hkind, trivial⟩
    rcases Option.bind_eq_some_iff.mp htext with ⟨n, hn, hidentifier⟩
    rw [hn, Node.identifierText?_eq_some_iff.mp hidentifier]
  · trivial

end Owned
end Outline

namespace Sketch

/-- The outlines of what lies one level deeper are owned by the function that opened the scope. A
pattern of parameters lies in a parameter. -/
structure Owns (f : Forest) (k : Sketch) : Prop where
  node : ∀ s x, (k.node s).Owned f x
  pattern : ∀ {names declaration s x}, names.kind ≠ .functionName →
    (names.kind = .parameter → names.hoisted = false ∧ ∀ c, s = some c → f.InParameter x c) →
    (k.pattern names declaration s).Owned f x

variable {k : Sketch} {i : NodeId} {n : Node Slot}

theorem Owns.nodes (h : k.Owns f) (slots : List Slot) (x : NodeId) : (k.nodes slots).Owned f x :=
  .concat fun s _ => h.node s x

theorem Owns.children (h : k.Owns f) (n : Node Slot) (x : NodeId) : (k.children n).Owned f x :=
  .concat fun i _ => h.node (some i) x

/-- A pattern that is no parameter. -/
theorem Owns.patternOf (h : k.Owns f) {names : NameKind} (hname : names.kind ≠ .functionName)
    (hparameter : names.kind ≠ .parameter) (declaration : Option NodeId) (s : Slot) (x : NodeId) :
    (k.pattern names declaration s).Owned f x :=
  h.pattern hname fun heq => absurd heq hparameter

theorem Owns.functionBody (h : k.Owns f) {form : FunctionForm} {ident code : Slot}
    {parameters : List Slot} {isAsync isGenerator : Bool}
    (hn : f.node? (some i) = some (.function form ident parameters code isAsync isGenerator)) :
    (k.functionBody f parameters code).Owned f i := by
  refine .append (.concat fun s hs => h.pattern nofun fun _ => ⟨rfl, ?_⟩) ?_
  · rintro c rfl
    exact ⟨form, ident, parameters, code, isAsync, isGenerator, hn, c, hs, .refl⟩
  · split
    · exact h.nodes _ i
    · exact h.node _ i
    · trivial

theorem Owns.function (h : k.Owns f) {form : FunctionForm} {ident code : Slot}
    {parameters : List Slot} {isAsync isGenerator : Bool}
    (hn : f.node? (some i) = some (.function form ident parameters code isAsync isGenerator)) :
    (k.function f i form ident parameters code).Owned f x := by
  have hbody := h.functionBody hn
  cases form with
  | declaration =>
      exact .append (.nameOf nofun nofun) ⟨.append trivial hbody, trivial⟩
  | expression =>
      refine ⟨.append (.nameOf (fun _ => ⟨rfl, ?_⟩) nofun) hbody, trivial⟩
      rintro c rfl
      exact ⟨parameters, code, isAsync, isGenerator, hn⟩
  | arrow => exact ⟨.append trivial hbody, trivial⟩

theorem Owns.declarator (h : k.Owns f) (kind : VariableKind) (hoisted : Bool) (s : Slot)
    (x : NodeId) : (k.declarator f ⟨hoisted, kind.bindingKind⟩ s).Owned f x := by
  unfold Sketch.declarator
  split
  · refine .append (h.patternOf ?_ ?_ _ _ x) (h.node _ x)
    · cases kind <;> nofun
    · cases kind <;> nofun
  · trivial

theorem Owns.classLike (h : k.Owns f) (form : ClassForm) (ident : Slot) (n : Node Slot) :
    (k.classLike f i form ident n).Owned f x := by
  have hinside : ∀ x, (nameOf f .«class» ident i ++ k.children n).Owned f x := fun x =>
    .append (.nameOf nofun nofun) (h.children n x)
  cases form with
  | declaration => exact hinside x
  | expression => exact ⟨hinside i, trivial⟩

theorem Owns.handler (h : k.Owns f) (parameter block : Slot) :
    (k.handler f i parameter block).Owned f x := by
  refine ⟨.append (h.patternOf (by rintro ⟨⟩) (by rintro ⟨⟩) _ _ i) ?_, trivial⟩
  split
  · exact h.nodes _ i
  · trivial

theorem Owns.ofNode (h : k.Owns f) (hn : f.node? (some i) = some n) :
    (k.ofNode f i n).Owned f x := by
  unfold Sketch.ofNode
  split
  · exact h.function hn
  · exact ⟨.concat fun s _ => h.declarator _ _ s x, trivial⟩
  · exact h.classLike _ _ _
  · exact ⟨h.nodes _ i, trivial⟩
  · exact ⟨h.nodes _ i, trivial⟩
  · exact ⟨h.children _ i, trivial⟩
  · exact ⟨h.children _ i, trivial⟩
  · exact .append (h.node _ x) ⟨h.nodes _ i, trivial⟩
  · exact h.handler _ _
  · exact h.children n x

theorem Owns.ofPattern (h : k.Owns f) (hf : f.WellFormed) (hn : f.node? (some i) = some n)
    {names : NameKind} (hname : names.kind ≠ .functionName)
    (hparameter : names.kind = .parameter → names.hoisted = false ∧ f.InParameter x i)
    (declaration : Option NodeId) : (k.ofPattern names declaration i n).Owned f x := by
  have hinside : ∀ {s declaration}, s ∈ n.slots → (k.pattern names declaration s).Owned f x := by
    intro s declaration hs
    refine h.pattern hname fun hkind => ⟨(hparameter hkind).1, ?_⟩
    rintro c rfl
    exact (hparameter hkind).2.child (hf.link_of_slot hn hs)
  unfold Sketch.ofPattern
  split
  · exact ⟨hn, fun heq => absurd heq hname, hparameter, trivial⟩
  · exact .concat fun s hs => hinside hs
  · exact .concat fun s hs => hinside hs
  · exact .append (.ite (h.node _ x) trivial) (hinside (.tail _ (.head _)))
  · exact .append (hinside (.head _)) (h.node _ x)
  · exact hinside (.head _)
  · trivial

theorem owns_ofDepth (hf : f.WellFormed) (depth : Nat) : (ofDepth f depth).Owns f := by
  induction depth with
  | zero => exact ⟨fun _ _ => trivial, fun _ _ => trivial⟩
  | succ depth ih =>
      constructor
      · intro s x
        unfold ofDepth
        dsimp only
        split
        · exact ih.ofNode ‹_›
        · trivial
      · intro names declaration s x hname hparameter
        unfold ofDepth
        dsimp only
        split
        · refine ih.ofPattern hf ‹_› hname (fun hkind => ⟨(hparameter hkind).1, ?_⟩) declaration
          exact (hparameter hkind).2 _ rfl
        · trivial

end Sketch

/-!
## What declarations record
-/

namespace Binding

/-- The declaration names the binding once more. -/
structure Redeclares (binding : Binding) (d : Declaration) : Prop where
  redeclared : binding.redeclared = true
  scope : d.scope = binding.scope
  name : d.name = binding.name
  reuses : Bindings.reuses d.kind binding = true

theorem Redeclares.of_origin {old new : Binding} {d : Declaration} (h : old.Redeclares d)
    (horigin : new.origin = old.origin) : new.Redeclares d := by
  have horiginal : old.origin.Redeclares d := ⟨h.redeclared, h.scope, h.name, h.reuses⟩
  rw [← horigin] at horiginal
  exact ⟨horiginal.redeclared, horiginal.scope, horiginal.name, horiginal.reuses⟩

/-- The binding is the same, up to being redeclared. -/
structure Renews (new old : Binding) : Prop where
  scope : new.scope = old.scope
  name : new.name = old.name
  kind : new.kind = old.kind
  declaration : new.declaration = old.declaration
  nameNode : new.nameNode = old.nameNode
  references : new.references = old.references
  redeclared : old.redeclared = true → new.redeclared = true

variable {old new : Binding} {d : Declaration}

theorem Renews.refl (binding : Binding) : binding.Renews binding :=
  ⟨rfl, rfl, rfl, rfl, rfl, rfl, id⟩

theorem Redeclares.renew (h : old.Redeclares d) (hnew : new.Renews old) : new.Redeclares d := by
  refine ⟨hnew.redeclared h.redeclared, hnew.scope ▸ h.scope, hnew.name ▸ h.name, ?_⟩
  have hreuses := h.reuses
  rwa [Bindings.reuses, ← hnew.kind] at hreuses

end Binding

namespace Bindings

variable {b b' : Bindings} {s t : ScopeId} {made made' : List Declaration}

/-- The known one of two bindings of one name is a parameter, the other one the name of a function
expression. -/
structure Hides (b : Bindings) (k : BindingId) (binding hidden : Binding) : Prop where
  known : b.names[(hidden.scope, hidden.name)]? = some k
  kind : binding.kind = .parameter
  hidden : hidden.kind = .functionName

/-- The identifier is the name of a binding, or names it once more. -/
def Names (made : List Declaration) (binding : Binding) (i : NodeId) : Prop :=
  i = binding.nameNode ∨ ∃ d ∈ made, d.nameNode = i ∧ binding.Redeclares d

/-- What the bindings say of the declarations that were made. -/
structure Declared (f : Forest) (made : List Declaration) (b : Bindings) : Prop where
  sound : ∀ {s name k}, b.names[(s, name)]? = some k →
    ∃ binding, b.binding? k = some binding ∧ binding.scope = s ∧ binding.name = name
  complete : ∀ {j binding}, b.binding? j = some binding →
    (b.names[(binding.scope, binding.name)]?).isSome
  apart : ∀ {j k binding binding'}, b.binding? j = some binding → b.binding? k = some binding' →
    j ≠ k → binding.scope = binding'.scope → binding.name = binding'.name →
      b.Hides j binding binding' ∨ b.Hides k binding' binding
  resolved : ∀ {i : NodeId} {j}, b.resolved[i]? = some j →
    ∃ binding, b.binding? j = some binding ∧ Names made binding i
  unused : ∀ {j binding}, b.binding? j = some binding → binding.references = #[]
  name : ∀ {j binding}, b.binding? j = some binding →
    f.node? (some binding.nameNode) = some (.name .identifier binding.name)
  ownName : ∀ {j binding}, b.binding? j = some binding → binding.kind = .functionName →
    b.opener binding.scope = some binding.declaration ∧
      f.OwnName binding.declaration binding.nameNode
  parameter : ∀ {j binding}, b.binding? j = some binding → binding.kind = .parameter →
    ∃ x, b.opener binding.scope = some x ∧ f.InParameter x binding.nameNode

theorem Names.renew {old new : Binding} {i : NodeId} (h : Names made old i)
    (hnew : new.Renews old) (hmade : made ⊆ made') : Names made' new i := by
  rcases h with rfl | ⟨d, hd, hi, hredeclares⟩
  · exact Or.inl hnew.nameNode.symm
  · exact Or.inr ⟨d, hmade hd, hi, hredeclares.renew hnew⟩

namespace Declared

/-- Bindings may be redeclared, and scopes may be opened. -/
theorem renew (h : b.Declared f made) (hmade : made ⊆ made') (hnames : b'.names = b.names)
    (hopener : ∀ {s x}, b.opener s = some x → b'.opener s = some x)
    (hforth : ∀ {j old}, b.binding? j = some old →
      ∃ new, b'.binding? j = some new ∧ new.Renews old)
    (hback : ∀ {j new}, b'.binding? j = some new →
      ∃ old, b.binding? j = some old ∧ new.Renews old)
    (hresolved : ∀ {i : NodeId} {j}, b'.resolved[i]? = some j → b.resolved[i]? = some j ∨
      ∃ binding, b'.binding? j = some binding ∧ Names made' binding i) :
    b'.Declared f made' := by
  refine ⟨?_, ?_, ?_, ?_, ?_, ?_, ?_, ?_⟩
  · intro s name k hk
    rw [hnames] at hk
    rcases h.sound hk with ⟨old, hold, hscope, hname⟩
    rcases hforth hold with ⟨new, hnew, hrenews⟩
    exact ⟨new, hnew, hrenews.scope.trans hscope, hrenews.name.trans hname⟩
  · intro j new hj
    rcases hback hj with ⟨old, hold, hrenews⟩
    rw [hnames, hrenews.scope, hrenews.name]
    exact h.complete hold
  · intro j k new new' hj hk hne hscope hname
    rcases hback hj with ⟨old, hold, hrenews⟩
    rcases hback hk with ⟨old', hold', hrenews'⟩
    rw [hrenews.scope, hrenews'.scope] at hscope
    rw [hrenews.name, hrenews'.name] at hname
    refine (h.apart hold hold' hne hscope hname).imp (fun hhides => ?_) fun hhides => ?_
    · refine ⟨?_, hrenews.kind.trans hhides.kind, hrenews'.kind.trans hhides.hidden⟩
      rw [hnames, hrenews'.scope, hrenews'.name]
      exact hhides.known
    · refine ⟨?_, hrenews'.kind.trans hhides.kind, hrenews.kind.trans hhides.hidden⟩
      rw [hnames, hrenews.scope, hrenews.name]
      exact hhides.known
  · intro i j hj
    rcases hresolved hj with hold | hnew
    · rcases h.resolved hold with ⟨old, hbinding, hnamed⟩
      rcases hforth hbinding with ⟨new, hnew, hrenews⟩
      exact ⟨new, hnew, hnamed.renew hrenews hmade⟩
    · exact hnew
  · intro j new hj
    rcases hback hj with ⟨old, hold, hrenews⟩
    exact hrenews.references.trans (h.unused hold)
  · intro j new hj
    rcases hback hj with ⟨old, hold, hrenews⟩
    rw [hrenews.nameNode, hrenews.name]
    exact h.name hold
  · intro j new hj hkind
    rcases hback hj with ⟨old, hold, hrenews⟩
    rw [hrenews.scope, hrenews.declaration, hrenews.nameNode]
    have hown := h.ownName hold (hrenews.kind.symm.trans hkind)
    exact ⟨hopener hown.1, hown.2⟩
  · intro j new hj hkind
    rcases hback hj with ⟨old, hold, hrenews⟩
    rw [hrenews.scope, hrenews.nameNode]
    rcases h.parameter hold (hrenews.kind.symm.trans hkind) with ⟨x, hx, hparameter⟩
    exact ⟨x, hopener hx, hparameter⟩

variable {kind : BindingKind} {name : String} {nameNode declaration : NodeId}

/-- A scope that already has the name counts its declarations. -/
theorem declare_old {i : BindingId} {binding : Binding} (h : b.Declared f made)
    (hname : b.names[(s, name)]? = some i) (hi : b.binding? i = some binding)
    (hreuse : reuses kind binding = true) :
    (b.declare s kind name nameNode declaration).Declared f
      (made ++ [⟨s, kind, name, nameNode, declaration⟩]) := by
  obtain ⟨hscope, htext⟩ : binding.scope = s ∧ binding.name = name := by
    rcases h.sound hname with ⟨binding', hi', hscope, htext⟩
    obtain rfl := Option.some.inj (hi.symm.trans hi')
    exact ⟨hscope, htext⟩
  have hbinding : ∀ j, (b.declare s kind name nameNode declaration).binding? j =
      if i = j then (b.binding? j).map fun binding => { binding with redeclared := true }
      else b.binding? j := by
    rw [Bindings.declare_old hname hi hreuse]
    exact fun j => Array.getElem?_modify
  have hrenews : ∀ old : Binding, Binding.Renews { old with redeclared := true } old :=
    fun _ => ⟨rfl, rfl, rfl, rfl, rfl, rfl, fun _ => rfl⟩
  refine h.renew (List.subset_append_left _ _) ?_ ?_ ?_ ?_ ?_
  · rw [Bindings.declare_old hname hi hreuse]
    rfl
  · intro t x hx
    rwa [(b.sameScopes_declare ..).opener]
  · intro j old hj
    rw [hbinding, hj]
    split
    · exact ⟨_, rfl, hrenews old⟩
    · exact ⟨old, rfl, .refl old⟩
  · intro j new hj
    rw [hbinding] at hj
    split at hj
    · rcases Option.map_eq_some_iff.mp hj with ⟨old, hold, rfl⟩
      exact ⟨old, hold, hrenews old⟩
    · exact ⟨new, hj, .refl new⟩
  · intro w j hj
    rw [Bindings.declare_old hname hi hreuse] at hj
    simp only [attach, modifyBinding, Std.HashMap.getElem?_insert, beq_iff_eq] at hj
    split at hj
    · rename_i hw
      obtain rfl := Option.some.inj hj
      refine Or.inr ⟨{ binding with redeclared := true }, ?_,
        Or.inr ⟨⟨s, kind, name, nameNode, declaration⟩, ?_, hw, ?_⟩⟩
      · rw [hbinding, if_pos rfl, hi]
        rfl
      · exact List.mem_append_right _ (List.mem_singleton_self _)
      · exact ⟨rfl, hscope.symm, htext.symm, hreuse⟩
    · exact Or.inl hj

section New

variable (hnew : ∀ i, b.names[(s, name)]? = some i →
  ∃ binding, b.binding? i = some binding ∧ reuses kind binding = false)

include hnew

theorem binding?_declare_new (j : BindingId) :
    (b.declare s kind name nameNode declaration).binding? j =
      if j = b.bindings.size then
        some ⟨name, kind, s, declaration, nameNode, false, false, #[]⟩
      else b.binding? j := by
  rw [Bindings.declare_new hnew]
  exact Array.getElem?_push

theorem binding?_of_old {j : BindingId} {binding : Binding} (hj : b.binding? j = some binding) :
    (b.declare s kind name nameNode declaration).binding? j = some binding := by
  have hlt : j < b.bindings.size := (Array.getElem?_eq_some_iff.mp hj).1
  rw [binding?_declare_new hnew, if_neg (Nat.ne_of_lt hlt), hj]

theorem names_declare_new (key : ScopeId × String) :
    (b.declare s kind name nameNode declaration).names[key]? =
      if key = (s, name) then some b.bindings.size else b.names[key]? := by
  rw [Bindings.declare_new hnew]
  by_cases hkey : key = (s, name)
  · simp [attach, hkey]
  · simp [attach, Std.HashMap.getElem?_insert, hkey, Ne.symm hkey]

/-- A binding that had the name before is the name of a function expression. -/
theorem functionName_of_new (h : b.Declared f made) {j : BindingId} {binding : Binding}
    (hj : b.binding? j = some binding) (hscope : binding.scope = s) (htext : binding.name = name) :
    kind = .parameter ∧ binding.kind = .functionName := by
  obtain ⟨i, hi⟩ := Option.isSome_iff_exists.mp (h.complete hj)
  rw [hscope, htext] at hi
  rcases hnew i hi with ⟨known, hknown, hnot⟩
  obtain ⟨hkind, hfunction⟩ : kind = .parameter ∧ known.kind = .functionName := by
    simpa [reuses] using hnot
  by_cases hij : i = j
  · subst hij
    obtain rfl := Option.some.inj (hj.symm.trans hknown)
    exact ⟨hkind, hfunction⟩
  · rcases h.sound hi with ⟨known', hknown', hscope', htext'⟩
    obtain rfl := Option.some.inj (hknown.symm.trans hknown')
    rcases h.apart hknown hj hij (hscope'.trans hscope.symm) (htext'.trans htext.symm) with
      hhides | hhides
    · cases hhides.kind.symm.trans hfunction
    · have hsame := hhides.known
      rw [hscope', htext', hi] at hsame
      exact absurd (Option.some.inj hsame) hij

/-- What hides another binding goes on hiding it, since only one that is not hidden gets hidden. -/
theorem hides_of_new (h : b.Declared f made) {j : BindingId} {binding hidden : Binding}
    (hj : b.binding? j = some binding) (hscope : binding.scope = hidden.scope)
    (htext : binding.name = hidden.name) (hhides : b.Hides j binding hidden) :
    (b.declare s kind name nameNode declaration).Hides j binding hidden := by
  refine ⟨?_, hhides.kind, hhides.hidden⟩
  rw [names_declare_new hnew, if_neg ?_]
  · exact hhides.known
  · intro hkey
    obtain ⟨hscope', htext'⟩ := Prod.mk.inj hkey
    have hfunction := functionName_of_new hnew h hj (hscope.trans hscope') (htext.trans htext')
    cases hhides.kind.symm.trans hfunction.2

/-- A name that the scope does not have gets a binding, as does a parameter with the name of its
own function. -/
theorem declare_new (h : b.Declared f made)
    (hname : f.node? (some nameNode) = some (.name .identifier name))
    (hown : kind = .functionName → b.opener s = some declaration ∧ f.OwnName declaration nameNode)
    (hparameter : kind = .parameter → ∃ x, b.opener s = some x ∧ f.InParameter x nameNode) :
    (b.declare s kind name nameNode declaration).Declared f
      (made ++ [⟨s, kind, name, nameNode, declaration⟩]) := by
  have hbinding := @binding?_declare_new b s kind name nameNode declaration hnew
  have hnames := @names_declare_new b s kind name nameNode declaration hnew
  have hopener : ∀ t, (b.declare s kind name nameNode declaration).opener t = b.opener t :=
    (b.sameScopes_declare ..).opener
  refine ⟨?_, ?_, ?_, ?_, ?_, ?_, ?_, ?_⟩
  · intro s' name' k hk
    rw [hnames] at hk
    split at hk
    · rename_i hkey
      obtain ⟨rfl, rfl⟩ := Prod.mk.inj hkey
      obtain rfl := Option.some.inj hk
      exact ⟨_, (hbinding _).trans (if_pos rfl), rfl, rfl⟩
    · rcases h.sound hk with ⟨binding, hk, hscope, htext⟩
      exact ⟨binding, binding?_of_old hnew hk, hscope, htext⟩
  · intro j binding hj
    rw [hnames]
    rw [hbinding] at hj
    split at hj
    · obtain rfl := Option.some.inj hj
      rw [if_pos rfl]
      rfl
    · split
      · rfl
      · exact h.complete hj
  · intro j k binding binding' hj hk hne hscope htext
    rw [hbinding] at hj hk
    split at hj <;> split at hk
    · rename_i hj' hk'
      exact absurd (hj'.trans hk'.symm) hne
    · rename_i hj' _
      obtain rfl := Option.some.inj hj
      rcases functionName_of_new hnew h hk hscope.symm htext.symm with ⟨hkind, hfunction⟩
      refine Or.inl ⟨?_, hkind, hfunction⟩
      rw [hnames, if_pos (Prod.ext hscope.symm htext.symm), hj']
    · rename_i _ hk'
      obtain rfl := Option.some.inj hk
      rcases functionName_of_new hnew h hj hscope htext with ⟨hkind, hfunction⟩
      refine Or.inr ⟨?_, hkind, hfunction⟩
      rw [hnames, if_pos (Prod.ext hscope htext), hk']
    · exact (h.apart hj hk hne hscope htext).imp (hides_of_new hnew h hj hscope htext)
        (hides_of_new hnew h hk hscope.symm htext.symm)
  · intro w j hj
    rw [Bindings.declare_new hnew] at hj
    simp only [attach, Std.HashMap.getElem?_insert, beq_iff_eq] at hj
    split at hj
    · rename_i hw
      obtain rfl := Option.some.inj hj
      exact ⟨_, (hbinding _).trans (if_pos rfl), Or.inl hw.symm⟩
    · rcases h.resolved hj with ⟨binding, hj, hnamed⟩
      exact ⟨binding, binding?_of_old hnew hj,
        hnamed.renew (.refl binding) (List.subset_append_left _ _)⟩
  · intro j binding hj
    rw [hbinding] at hj
    split at hj
    · obtain rfl := Option.some.inj hj
      rfl
    · exact h.unused hj
  · intro j binding hj
    rw [hbinding] at hj
    split at hj
    · obtain rfl := Option.some.inj hj
      exact hname
    · exact h.name hj
  · intro j binding hj
    rw [hbinding] at hj
    rw [hopener]
    split at hj
    · obtain rfl := Option.some.inj hj
      exact hown
    · exact h.ownName hj
  · intro j binding hj
    rw [hbinding] at hj
    rw [hopener]
    split at hj
    · obtain rfl := Option.some.inj hj
      exact hparameter
    · exact h.parameter hj

end New

theorem declare (h : b.Declared f made)
    (hname : f.node? (some nameNode) = some (.name .identifier name))
    (hown : kind = .functionName → b.opener s = some declaration ∧ f.OwnName declaration nameNode)
    (hparameter : kind = .parameter → ∃ x, b.opener s = some x ∧ f.InParameter x nameNode) :
    (b.declare s kind name nameNode declaration).Declared f
      (made ++ [⟨s, kind, name, nameNode, declaration⟩]) := by
  by_cases hold : ∃ i binding, b.names[(s, name)]? = some i ∧ b.binding? i = some binding ∧
      reuses kind binding = true
  · rcases hold with ⟨i, binding, hi, hbinding, hreuse⟩
    exact h.declare_old hi hbinding hreuse
  · refine declare_new (fun i hi => ?_) h hname hown hparameter
    rcases h.sound hi with ⟨binding, hbinding, _, _⟩
    exact ⟨binding, hbinding,
      Bool.eq_false_iff.mpr fun hreuse => hold ⟨i, binding, hi, hbinding, hreuse⟩⟩

theorem openScope (h : b.Declared f made) (kind : ScopeKind) (node : NodeId) (s : ScopeId) :
    (b.openScope kind (some node) (some s)).2.Declared f made :=
  h.renew (List.Subset.refl _) rfl (b.extends_openScope kind (some node) (some s)).opener
    (fun hj => ⟨_, hj, .refl _⟩) (fun hj => ⟨_, hj, .refl _⟩) Or.inl

/-- Playing an outline whose names belong to a function adds the declarations that are made. -/
theorem play {o : Outline} (h : b.Declared f made) (ho : o.Owned f x) (hs : b.opener s = some x) :
    (o.play s t b).Declared f (made ++ o.made s t b) := by
  induction o generalizing b s t x made with
  | done =>
      rw [Outline.made, List.append_nil]
      exact h
  | declare hoisted kind name nameNode declaration rest ih =>
      obtain ⟨hname, hown, hparameter, hrest⟩ := ho
      have hopener : (b.declare (if hoisted then t else s) kind name nameNode declaration).opener
          s = some x := by
        rwa [(b.sameScopes_declare ..).opener]
      have hdeclared : (b.declare (if hoisted then t else s) kind name nameNode
          declaration).Declared f
          (made ++ [⟨if hoisted then t else s, kind, name, nameNode, declaration⟩]) := by
        refine h.declare hname (fun hkind => ?_) fun hkind => ?_
        · obtain ⟨rfl, rfl, hown⟩ := hown hkind
          exact ⟨hs, hown⟩
        · obtain ⟨rfl, hplace⟩ := hparameter hkind
          exact ⟨x, hs, hplace⟩
      have hplayed := ih (t := t) hdeclared hrest hopener
      rw [List.append_assoc] at hplayed
      exact hplayed
  | scope kind node inside rest ih ih' =>
      have hextends := b.extends_openScope kind (some node) (some s)
      have hinside := ih (t := b.scopes.size) (h.openScope kind node s) ho.1
        ((opener_openScope b.scopes.size).trans (if_pos rfl))
      have hplayed := ih' (t := t) hinside ho.2
        ((extends_play inside b.scopes.size b.scopes.size _).opener (hextends.opener hs))
      rw [List.append_assoc] at hplayed
      exact hplayed
  | vars inside rest ih ih' =>
      have hinside := ih (t := b.hoistingScope s) h ho.1 hs
      have hplayed := ih' (t := t) hinside ho.2 ((extends_play inside s _ b).opener hs)
      rw [List.append_assoc] at hplayed
      exact hplayed
  | cut rest ih =>
      have hcut : b.truncate.Declared f made :=
        h.renew (List.Subset.refl _) rfl id (fun hj => ⟨_, hj, .refl _⟩) (fun hj => ⟨_, hj, .refl _⟩)
          Or.inl
      exact ih hcut ho hs

end Declared

/-- The declarations of the tree below a root, in the order in which they are made. -/
def declarationsMade (f : Forest) (root : NodeId) : List Declaration :=
  (outline f root).made programScope programScope (start root)

theorem owned_outline (hf : f.WellFormed) (root : NodeId) : (outline f root).Owned f root :=
  (Sketch.owns_ofDepth hf (Limits.treeDepth + 1)).node (some root) root

theorem declared_declarations (hf : f.WellFormed) (root : NodeId) :
    (declarations f root).Declared f (declarationsMade f root) := by
  have hstart : (start root).Declared f [] := by
    have hnames : ∀ {key}, (start root).names[key]? = none := Std.HashMap.getElem?_empty
    have hnone : ∀ {j binding}, (start root).binding? j ≠ some binding := by
      simp [start, openScope, empty, binding?]
    have hresolved : ∀ {i : NodeId}, (start root).resolved[i]? = none :=
      Std.HashMap.getElem?_empty
    refine ⟨fun hk => ?_, fun hj => absurd hj hnone, fun hj => absurd hj hnone, fun hj => ?_,
      fun hj => absurd hj hnone, fun hj => absurd hj hnone, fun hj => absurd hj hnone,
      fun hj => absurd hj hnone⟩
    · rw [hnames] at hk
      cases hk
    · rw [hresolved] at hj
      cases hj
  have hopener : (start root).opener programScope = some root := rfl
  exact hstart.play (owned_outline hf root) hopener

end Bindings
end Untangle
