import Untangle.Proofs.Scope.Outline

/-!
# Charts

The numbers of scopes and bindings depend on everything that was declared before. A chart knows a
scope by the node that opens it and a binding by the node that declares it, so that the charts of
two trees can be compared.
-/

namespace Untangle

/-- What a scope knows of a name. -/
structure Entry where
  declaration : NodeId
  kind : BindingKind
  /-- The scope declares the name more than once. -/
  redeclared : Bool
  deriving Repr, DecidableEq

/-- A new declaration of a known name belongs to the first one, as `Bindings.reuses` says. -/
def Entry.reusedFor (e : Entry) (kind : BindingKind) : Bool :=
  !(kind == .parameter && e.kind == .functionName)

/-- What a scope knows of a name after one more declaration. -/
def Entry.declare (known : Option Entry) (kind : BindingKind) (declaration : NodeId) : Entry :=
  match known with
  | some e =>
      if e.reusedFor kind then { e with redeclared := true } else ⟨declaration, kind, false⟩
  | none => ⟨declaration, kind, false⟩

structure Chart where
  table : NodeId → String → Option Entry
  /-- The scope around a scope. -/
  around : NodeId → Option NodeId
  /-- The declaration of a name that is declared. -/
  named : NodeId → Option NodeId

namespace Chart

def empty : Chart :=
  ⟨fun _ _ => none, fun _ => none, fun _ => none⟩

def declare (c : Chart) (x : NodeId) (kind : BindingKind) (name : String)
    (nameNode declaration : NodeId) : Chart :=
  let e := Entry.declare (c.table x name) kind declaration
  { c with
    table := fun y text => if y = x ∧ text = name then some e else c.table y text
    named := fun i => if i = nameNode then some e.declaration else c.named i }

def enter (c : Chart) (x y : NodeId) : Chart :=
  { c with around := fun z => if z = x then some y else c.around z }

/-!
## Lookup
-/

/-- What a name means in a scope: the node that declares it, if any. -/
inductive Means (c : Chart) (name : String) : NodeId → Option NodeId → Prop
  | here {x : NodeId} {e : Entry} (h : c.table x name = some e) :
      Means c name x (some e.declaration)
  | outward {x y : NodeId} {r : Option NodeId} (h : c.table x name = none)
      (hy : c.around x = some y) (hr : Means c name y r) : Means c name x r
  | nowhere {x : NodeId} (h : c.table x name = none) (hx : c.around x = none) :
      Means c name x none

theorem Means.unique {c : Chart} {name : String} {x : NodeId} {r r' : Option NodeId}
    (h : c.Means name x r) (h' : c.Means name x r') : r = r' := by
  induction h with
  | here h =>
      cases h' with
      | here h' => rw [Option.some.inj (h.symm.trans h')]
      | outward h' _ _ => cases h.symm.trans h'
      | nowhere h' _ => cases h.symm.trans h'
  | outward h hy _ ih =>
      cases h' with
      | here h' => cases h.symm.trans h'
      | outward _ hy' hr =>
          obtain rfl := Option.some.inj (hy.symm.trans hy')
          exact ih hr
      | nowhere _ hx => cases hy.symm.trans hx
  | nowhere h hx =>
      cases h' with
      | here h' => cases h.symm.trans h'
      | outward _ hy _ => cases hx.symm.trans hy
      | nowhere _ _ => rfl

end Chart

namespace Outline

/-- Enter on a chart what the outline declares. The nodes opened the scope, the scope of `var`
declarations, and the one where those of the next statement belong. -/
def chart : Outline → (x y z : NodeId) → Chart → Chart
  | done, _, _, _, c => c
  | declare hoisted kind name nameNode declaration rest, x, y, z, c =>
      rest.chart x y z (c.declare (if hoisted then y else x) kind name nameNode declaration)
  | scope kind node inside rest, x, y, z, c =>
      let target := if kind.isHoistingTarget then node else z
      rest.chart x y z (inside.chart node node target (c.enter node x))
  | vars inside rest, x, y, z, c => rest.chart x y z (inside.chart x z z c)
  | cut rest, x, y, z, c => rest.chart x y z c

theorem chart_append {o o' : Outline} {x y z : NodeId} {c : Chart} :
    (o ++ o').chart x y z c = o'.chart x y z (o.chart x y z c) := by
  induction o generalizing c with
  | done => rfl
  | declare hoisted kind name nameNode declaration rest ih => exact ih
  | scope kind node inside rest _ ih => exact ih
  | vars inside rest _ ih => exact ih
  | cut rest ih => exact ih

/-- Names that are not declared keep what is known of them. -/
theorem named_chart {o : Outline} {x y z i : NodeId} {c : Chart} (hi : i ∉ o.names) :
    (o.chart x y z c).named i = c.named i := by
  induction o generalizing x y z c with
  | done => rfl
  | declare hoisted kind name nameNode declaration rest ih =>
      rw [names, List.mem_cons, not_or] at hi
      exact (ih hi.2).trans (if_neg hi.1)
  | scope kind node inside rest ih ih' =>
      rw [names, List.mem_append, not_or] at hi
      exact (ih' hi.2).trans (ih hi.1)
  | vars inside rest ih ih' =>
      rw [names, List.mem_append, not_or] at hi
      exact (ih' hi.2).trans (ih hi.1)
  | cut rest ih => exact ih hi

/-- The nodes that open scopes. -/
def openers : Outline → List NodeId
  | done => []
  | declare _ _ _ _ _ rest => rest.openers
  | scope _ node inside rest => node :: (inside.openers ++ rest.openers)
  | vars inside rest => inside.openers ++ rest.openers
  | cut rest => rest.openers

/-- How deep scopes are nested. -/
def height : Outline → Nat
  | done => 0
  | declare _ _ _ _ _ rest => rest.height
  | scope _ _ inside rest => max (inside.height + 1) rest.height
  | vars inside rest => max inside.height rest.height
  | cut rest => rest.height

variable (o o' : Outline)

@[simp] theorem height_append : (o ++ o').height = max o.height o'.height := by
  induction o with
  | done => exact (Nat.zero_max _).symm
  | declare hoisted kind name nameNode declaration rest ih => exact ih
  | scope kind node inside rest _ ih => exact (congrArg (max _) ih).trans (Nat.max_assoc ..).symm
  | vars inside rest _ ih => exact (congrArg (max _) ih).trans (Nat.max_assoc ..).symm
  | cut rest ih => exact ih

end Outline
end Untangle
