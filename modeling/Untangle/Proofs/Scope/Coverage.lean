import Untangle.Proofs.Grammar.BareNames
import Untangle.Proofs.Scope.Placement
import Untangle.Proofs.Scope.References
import Untangle.Proofs.Scope.Uses

/-!
# What the walk that resolves names covers

The walk passes over the names of functions, classes, properties and labels. Where these hold no
code of their own, it comes to every node that has children, and takes up each of them.
-/

namespace Untangle

open Forest
open Relation (ReflTransGen)

/-!
## Where the walk goes on
-/

namespace Node

variable {n : Node Slot} {p q : Purpose} {c : NodeId} {e : Errand} {k : Option ReferenceKind}

/-- A node is not taken up a third time. -/
theorem again?_of_again? (h : n.again? p = some q) : n.again? q = none := by
  cases p with
  | value kind =>
      cases n with
      | list form _ | binary form _ _ _ | operand form _ => cases form <;> cases h <;> rfl
      | _ => cases h
  | target kind =>
      cases n with
      | list form _ | binary form _ _ _ | operand form _ | bare form | name form _ =>
          cases form <;> cases h <;> rfl
      | _ => cases h <;> rfl

/-- The walk goes on to all children that are no mere names. -/
theorem mem_nameSlots_or_errand (hagain : n.again? p = none) (hc : some c ∈ n.slots) :
    some c ∈ n.nameSlots ∨ ∃ e ∈ n.errands p, e.slot = some c := by
  rw [← List.mem_map]
  have hchild : some c ∈ ((childrenOf n).map fun i => Errand.toValue (some i)).map Errand.slot := by
    rw [List.map_map]
    exact List.mem_map.mpr ⟨c, List.mem_filterMap.mpr ⟨_, hc, rfl⟩, rfl⟩
  cases p with
  | value kind =>
      cases n with
      | method _ _ _ computed _ | field _ _ computed _ | property _ _ _ computed =>
          cases computed <;>
            simpa [slots, nameSlots, errands, valueErrands, Errand.toValueIf] using hc
      | list form _ | operand form _ | access form _ _ _ _ | binary form _ _ _
      | call form _ _ _ _ | guarded form _ _ =>
          cases form <;> simp_all [slots, nameSlots, errands, valueErrands, again?, or_comm]
      | _ => simp_all [slots, nameSlots, errands, valueErrands]
  | target kind =>
      cases n with
      | property _ _ _ computed =>
          cases computed <;>
            simpa [slots, nameSlots, errands, targetErrands, Errand.toValueIf] using hc
      | list form _ | operand form _ | bare form | binary form _ _ _ | name form _ =>
          cases form <;> simp_all [slots, errands, targetErrands, again?]
      | _ => cases hagain

theorem mem_slots_of_mem_nameSlots (h : some c ∈ n.nameSlots) : some c ∈ n.slots := by
  cases n with
  | method _ _ _ computed _ | field _ _ computed _ | property _ _ _ computed =>
      cases computed <;> simp_all [nameSlots, slots]
  | access form _ _ _ _ => cases form <;> simp_all [nameSlots, slots]
  | _ => simp_all [nameSlots, slots]

/-- The walk goes on to no name. -/
theorem names_and_errands (hagain : n.again? p = none) :
    (n.nameSlots ++ (n.errands p).map Errand.slot).Subperm n.slots := by
  have hunnamed (h : n.nameSlots = []) :
      (n.nameSlots ++ (n.errands p).map Errand.slot).Subperm n.slots := by
    rw [h]
    exact (n.slots_errands p).subperm
  have hcomputed : ∀ (computed : Bool) (key value : Slot) {e : Errand}, e.slot = value →
      ((if computed then [] else [key]) ++
        (Errand.toValueIf computed key ++ [e]).map Errand.slot).Subperm [key, value] := by
    rintro computed key value e rfl
    cases computed <;> exact .refl _
  cases p with
  | value kind =>
      cases n with
      | method _ key value computed _ => exact hcomputed computed key value rfl
      | field key value computed _ => exact hcomputed computed key value rfl
      | property _ key value computed => exact hcomputed computed key value rfl
      | function _ _ _ _ _ _ | classLike _ _ _ _ | labeled _ _ | jump _ _ =>
          simp [nameSlots, errands, valueErrands, slots, List.Subperm.refl]
      | access form object key _ _ =>
          cases form with
          | property => exact (List.Perm.swap object key []).subperm
          | element => exact hunnamed rfl
      | _ => exact hunnamed rfl
  | target kind =>
      cases n with
      | property _ key value computed => exact hcomputed computed key value rfl
      | list _ _ | operand _ _ | bare _ | binary _ _ _ _ | name _ _ => exact hunnamed rfl
      | _ => cases hagain
/-- Declared targets come from what declares, or from targets inside of them. -/
theorem eq_toTarget (he : e ∈ n.errands p) (h : e.purpose = .target k) :
    e = .toTarget k e.slot ∧ ∀ k', p = .target k' → k' = k := by
  cases p with
  | value kind =>
      refine ⟨?_, nofun⟩
      cases n with
      | access form _ _ _ _ | binary form _ _ _ | call form _ _ _ _ | guarded form _ _ =>
          cases form <;> grind [errands, valueErrands, Errand.toValue]
      | _ => grind [errands, valueErrands, Errand.toValueIf, Errand.toValue, Errand.toTarget]
  | target kind =>
      cases n <;> grind [errands, targetErrands, Errand.toValueIf, Errand.toValue, Errand.toTarget]

theorem again?_ne_target_none (h : n.again? p = some q) : q ≠ .target none := by
  rintro rfl
  cases p with
  | value kind =>
      cases n with
      | list form _ | binary form _ _ _ | operand form _ => cases form <;> cases h
      | _ => cases h
  | target kind =>
      cases n with
      | list form _ | binary form _ _ _ | operand form _ | bare form | name form _ =>
          cases form <;> cases h
      | _ => cases h
end Node

/-!
## Nodes that the walk comes to
-/

/-- The parent of a node of the tree is one as well. -/
theorem Forest.Within.parent {f : Forest} {root i p : NodeId} (h : f.Within i root)
    (hroot : f.parent (some root) = none) (hlink : f.Link i p) : f.Within p root := by
  rcases h.cases_head with rfl | ⟨q, hlink', hq⟩
  · cases hroot.symm.trans hlink
  · exact Link.unique hlink hlink' ▸ hq

namespace Forest.BareNames

variable {f : Forest} {root i p : NodeId} {n : Node Slot}

/-- The walk comes to a node with children for a purpose for which it goes on to them. -/
theorem exists_reached (hbare : f.BareNames) (hf : f.WellFormed) (hwithin : f.Within p root)
    (hlink : f.Link i p) (hn : f.node? (some p) = some n) :
    ∃ purpose, Reached f root (purpose, p) ∧ n.again? purpose = none := by
  have hstops : ∀ {p n purpose}, f.node? (some p) = some n → Reached f root (purpose, p) →
      ∃ purpose, Reached f root (purpose, p) ∧ n.again? purpose = none := by
    intro p n purpose hn hreached
    cases hagain : n.again? purpose with
    | none => exact ⟨purpose, hreached, hagain⟩
    | some q => exact ⟨q, hreached.tail (.again hn hagain), Node.again?_of_again? hagain⟩
  induction hwithin using ReflTransGen.head_induction_on generalizing i n with
  | refl => exact hstops hn .refl
  | @head p q hpq _ ih =>
      rcases hf.exists_owner hpq with ⟨m, hm, hslot, _⟩
      rcases ih hpq hm with ⟨purpose, hreached, hagain⟩
      rcases Node.mem_nameSlots_or_errand hagain hslot with hname | ⟨e, he, hc⟩
      · have hmem := hf.linked.mp hlink
        rw [hbare hm hname] at hmem
        cases hmem
      · exact hstops hn (hreached.tail (.child hm hagain he hc))

/-- The walk comes to what a pattern declares. -/
theorem reached_of_binds (hbare : f.BareNames) (hf : f.WellFormed)
    (hroot : f.parent (some root) = none) (hwithin : f.Within i root) (hi : f.Binds i) :
    Reached f root (.target none, i) := by
  induction hi with
  | @pattern i p n hn hi =>
      have hlink := hf.link_of_errand (p := .value .read) hn hi rfl
      rcases hbare.exists_reached hf (hwithin.parent hroot hlink) hlink hn with
        ⟨purpose, hreached, hagain⟩
      cases purpose with
      | value kind => exact hreached.tail (.child hn hagain hi rfl)
      | target kind =>
          have hsome := Node.again?_of_target_mem (k := kind) hi
          rw [hagain] at hsome
          cases hsome
  | @deeper i p n _ hn hagain hi ih =>
      have hlink := hf.link_of_errand (p := .target none) hn hi rfl
      exact (ih (hwithin.parent hroot hlink)).tail (.child hn hagain hi rfl)

/-- The walk comes to the declaration of a function for its value. -/
theorem reached_of_declaresFunction (hbare : f.BareNames) (hf : f.WellFormed)
    (hwithin : f.Within p root) (hp : f.DeclaresFunction p (some i)) :
    ∃ kind, Reached f root (.value kind, p) := by
  rcases hp with ⟨parameters, code, isAsync, isGenerator, hn⟩
  have hlink : f.Link i p := hf.link_of_ownName hn rfl
  rcases hbare.exists_reached hf hwithin hlink hn with ⟨purpose, hreached, hagain⟩
  cases purpose with
  | value kind => exact ⟨kind, hreached⟩
  | target kind => cases hagain

end Forest.BareNames

/-!
## References
-/

/-- An identifier of the tree that is neither declared by a pattern nor the name of something. -/
structure Forest.Mentions (f : Forest) (root i : NodeId) : Prop where
  node : ∃ name, f.node? (some i) = some (.name .identifier name)
  within : f.Within i root
  unbound : ¬ f.Binds i
  notName : ∀ ⦃p n⦄, f.node? (some p) = some n → some i ∉ n.nameSlots

/-- What the walk goes on to is no name. -/
theorem Forest.WellFormed.not_name_of_errand {f : Forest} {n : Node Slot} {i c : NodeId}
    {p : Purpose} {e : Errand} (hf : f.WellFormed) (hn : f.node? (some i) = some n)
    (hagain : n.again? p = none) (he : e ∈ n.errands p) (hc : e.slot = some c) :
    some c ∉ n.nameSlots := by
  intro hname
  have hnodup := hf.nodup i
  rw [children_of_node? hn] at hnodup
  rcases Node.names_and_errands hagain with ⟨l, hperm, hsub⟩
  have hall : ((n.nameSlots ++ (n.errands p).map Errand.slot).filterMap id).Nodup :=
    (hperm.filterMap id).nodup_iff.mp (hnodup.sublist (hsub.filterMap id))
  rw [List.filterMap_append] at hall
  refine List.disjoint_of_nodup_append hall (a := c) ?_ ?_
  · exact List.mem_filterMap.mpr ⟨_, hname, rfl⟩
  · exact List.mem_filterMap.mpr ⟨_, List.mem_map_of_mem he, hc⟩
section References

variable {f : Forest} {root i : NodeId}

/-- What the walk comes to as a target without a kind is declared. -/
theorem Reached.binds {x : Position} (h : Reached f root x) (hx : x.1 = .target none) :
    f.Binds x.2 := by
  induction h with
  | refl => cases hx
  | tail _ hnext ih =>
      cases hnext with
      | again hn hq => exact absurd hx (Node.again?_ne_target_none hq)
      | @child i c n p e hn hagain he hc =>
          obtain ⟨heq, hkind⟩ := Node.eq_toTarget he hx
          rw [heq, hc] at he
          cases p with
          | value kind => exact .pattern hn he
          | target kind =>
              obtain rfl := hkind kind rfl
              exact .deeper (ih rfl) hn hagain he

/-- The walk does not come to names. -/
theorem Reached.notName {x : Position} (h : Reached f root x) (hf : f.WellFormed)
    (hroot : f.parent (some root) = none) {p : NodeId} {n : Node Slot}
    (hn : f.node? (some p) = some n) : some x.2 ∉ n.nameSlots := by
  induction h with
  | refl =>
      intro hname
      cases hroot.symm.trans (hf.link_of_slot hn (Node.mem_slots_of_mem_nameSlots hname))
  | tail _ hnext ih =>
      cases hnext with
      | again _ _ => exact ih
      | child hm hagain he hc =>
          intro hname
          have hlink := hf.link_of_slot hn (Node.mem_slots_of_mem_nameSlots hname)
          obtain rfl := Link.unique hlink (hf.link_of_errand hm he hc)
          obtain rfl := Option.some.inj (hn.symm.trans hm)
          exact hf.not_name_of_errand hn hagain he hc hname

/-- The names that the walk uses are those that stand for something declared elsewhere. -/
theorem Forest.BareNames.used_iff (hbare : f.BareNames) (hf : f.WellFormed)
    (hroot : f.parent (some root) = none) :
    (∃ kind name, Used f root kind name i) ↔ f.Mentions root i := by
  constructor
  · rintro ⟨kind, name, hn, p, hreached, hkind⟩
    refine ⟨⟨name, hn⟩, within_of_path hf hreached, fun hbinds => ?_, fun q m hm => ?_⟩
    · obtain rfl : p = .target none := hf.reached_of_binds hroot hreached hbinds hn rfl
      cases hkind
    · exact hreached.notName hf hroot hm
  · rintro ⟨⟨name, hn⟩, hwithin, hunbound, hnotName⟩
    have hused : ∀ {p}, Reached f root (p, i) → ∃ kind name, Used f root kind name i := by
      intro p hreached
      cases hkind : p.use? with
      | some kind => exact ⟨kind, name, hn, p, hreached, hkind⟩
      | none =>
          cases p with
          | value kind => cases hkind
          | target kind =>
              obtain rfl : kind = none := hkind
              exact absurd (hreached.binds rfl) hunbound
    rcases hwithin.cases_head with rfl | ⟨p, hlink, hp⟩
    · exact hused .refl
    · rcases hf.exists_owner hlink with ⟨n, howner, hslot, _⟩
      rcases hbare.exists_reached hf hp hlink howner with ⟨purpose, hreached, hagain⟩
      rcases Node.mem_nameSlots_or_errand hagain hslot with hname | ⟨e, he, hc⟩
      · exact absurd hname (hnotName howner)
      · exact hused (hreached.tail (.child howner hagain he hc))

end References
end Untangle
