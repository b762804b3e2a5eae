import Untangle.Proofs.Grammar.PatternPlaces

/-!
# Bare names

The name of a function or class, a label and a key that is not computed are no code. In the tree
of a parsed program nothing lies below them.
-/

namespace Untangle

open Forest Role

/-- The slots that hold the name of something. -/
def Node.nameSlots {α : Type} : Node α → List α
  | function _ ident _ _ _ _ => [ident]
  | classLike _ ident _ _ => [ident]
  | method _ key _ computed _ => if computed then [] else [key]
  | field key _ computed _ => if computed then [] else [key]
  | property _ key _ computed => if computed then [] else [key]
  | labeled label _ => [label]
  | jump _ label => [label]
  | access .property _ key _ _ => [key]
  | _ => []

/-- Nothing lies below a name. -/
def Forest.BareNames (f : Forest) : Prop :=
  ∀ ⦃i n c⦄, f.node? (some i) = some n → some c ∈ n.nameSlots → f.children (some c) = []

variable {f : Forest} {role : Role} {roles : List Role} {n : Node Slot} {i c : NodeId}

/-- A node asks for names in the slots of names. -/
theorem Role.Rule.name_mem_zip (h : role.Rule n roles) (hc : some c ∈ n.nameSlots) :
    (some c, .name) ∈ n.slots.zip roles := by
  have hkey : ∀ {computed : Bool} {key value : Slot} {valueRole : Role},
      some c ∈ (if computed then [] else [key]) →
        (some c, .name) ∈ [key, value].zip [ofName computed key, valueRole] := by
    intro computed key value valueRole hc
    cases computed with
    | true => cases hc
    | false =>
        obtain rfl := List.mem_singleton.mp hc
        exact List.mem_cons_self
  cases h with
  | plain _ hplain =>
      cases n with
      | function form ident parameters code isAsync isGenerator =>
          obtain rfl := Option.some.inj hplain
          obtain rfl := List.mem_singleton.mp hc
          exact List.mem_cons_self
      | classLike form ident heritage members =>
          obtain rfl := Option.some.inj hplain
          obtain rfl := List.mem_singleton.mp hc
          exact List.mem_cons_self
      | method kind key value computed isStatic =>
          obtain rfl := Option.some.inj hplain
          exact hkey hc
      | field key value computed isStatic =>
          obtain rfl := Option.some.inj hplain
          exact hkey hc
      | property kind key value computed => cases hplain
      | labeled label statement =>
          obtain rfl := Option.some.inj hplain
          obtain rfl := List.mem_singleton.mp hc
          exact List.mem_cons_self
      | jump form label =>
          obtain rfl := Option.some.inj hplain
          obtain rfl := List.mem_singleton.mp hc
          exact List.mem_cons_self
      | access form object key isOptional inChain =>
          cases form with
          | property =>
              obtain rfl := Option.some.inj hplain
              obtain rfl := List.mem_singleton.mp hc
              exact List.mem_cons_of_mem _ List.mem_cons_self
          | element => cases hc
      | _ => cases hc
  | property _ _ => exact hkey hc
  | literal _ _ => exact hkey hc
  | _ => cases hc

namespace Forest

/-- Nothing lies below a tree that is a name. -/
theorem HasRole.children_eq_nil (h : f.HasRole .name i) : f.children (some i) = [] := by
  cases h with
  | @node _ _ n held hn hheld hchildren =>
      rw [children_of_node? hn]
      cases n with
      | name _ _ | string _ _ _ | number _ _ | bigInt _ => rfl
      | _ => cases hheld

theorem HasRole.bare (h : f.HasRole role i) (hn : f.node? (some i) = some n)
    (hc : some c ∈ n.nameSlots) : f.children (some c) = [] := by
  rcases h.asks hn with ⟨roles, hroles, hasks⟩
  exact (hasks.child ((rule_of_roles hroles).name_mem_zip hc)).children_eq_nil

/-- A default value belongs to an element of a pattern, and to no target by itself. -/
theorem HasRole.ne_default {declares : Bool} (h : f.HasRole (.target declares) i)
    (left : Slot) (operator : TokenKind) (right : Slot) :
    f.node? (some i) ≠ some (.binary .default left operator right) := by
  intro hn
  rcases h.asks hn with ⟨roles, hroles, _⟩
  have hleaf : (Node.binary .default left operator right).isLeaf declares = true :=
    (Node.isLeaf_of_leafRoles hroles).1
  cases declares <;> cases hleaf

end Forest

/-- Names are bare in the tree of a parsed program. -/
theorem Program.bareNames_parse {source : String} {p : Program} (h : parse source = .ok p) :
    p.forest.BareNames := by
  have hgrown := grownAs_parse h
  intro i n c hn hc
  rcases hgrown.grown.exists_sited (hgrown.roles _ (List.mem_singleton_self _))
    (fun i => not_strayShorthand_parse h) hn with ⟨role, hrole, _⟩
  exact hrole.bare hn hc

/-- In a parsed program the target of a declarator has no default value. -/
theorem Program.ne_default_of_declarator {source : String} {p : Program}
    (h : parse source = .ok p) {d : NodeId} {target initializer : Slot}
    (hn : p.forest.node? (some d) = some (.declarator target initializer))
    (left : Slot) (operator : TokenKind) (right : Slot) :
    p.forest.node? target ≠ some (.binary .default left operator right) := by
  have hgrown := grownAs_parse h
  rcases hgrown.grown.exists_sited (hgrown.roles _ (List.mem_singleton_self _))
    (fun i => not_strayShorthand_parse h) hn with ⟨role, hrole, _⟩
  intro htarget
  cases target with
  | none => cases htarget
  | some t =>
      have hchild := (hrole.asks_of_plainRoles hn rfl).child List.mem_cons_self
      exact hchild.ne_default left operator right htarget

end Untangle
