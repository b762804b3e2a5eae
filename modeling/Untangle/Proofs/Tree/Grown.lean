import Untangle.Proofs.Tree.Levels
import Untangle.Proofs.Tree.Subtree

/-!
# Forests built bottom-up

A forest to which nodes are only added is a row of trees. Its roots are the nodes that no node
has taken as a child yet, and every child is older than its parent.
-/

namespace Untangle
namespace Forest

open Relation

variable {f g : Forest} {roots rest : List NodeId} {n : Node Slot} {i j p : NodeId}

/-!
## Rows of trees
-/

structure Grown (f : Forest) (roots : List NodeId) : Prop where
  wellFormed : f.WellFormed
  older : ∀ {c p}, f.Link c p → c < p
  nodup : roots.Nodup
  mem_iff : ∀ {i}, i ∈ roots ↔ f.Free i

theorem grown_empty : Forest.empty.Grown [] := by
  have hcell : ∀ i, Forest.empty.cell? (some i) = none := fun i => rfl
  refine ⟨wellFormed_empty, ?_, List.nodup_nil, ?_⟩
  · intro c p hlink
    simp [Link, parent_eq, hcell] at hlink
  · intro i
    simp [Free, empty, size]

theorem Grown.perm {roots' : List NodeId} (h : f.Grown roots) (hperm : roots.Perm roots') :
    f.Grown roots' :=
  ⟨h.wellFormed, h.older, hperm.nodup_iff.mp h.nodup, hperm.mem_iff.symm.trans h.mem_iff⟩

/-- A new node takes the first roots as its children and becomes a root. -/
theorem Grown.add {start stop : Nat} (h : f.Grown (childrenOf n ++ rest)) (hn : FullEntries n) :
    (f.add n start stop).2.Grown (f.size :: rest) := by
  rcases List.nodup_append'.mp h.nodup with ⟨hchildren, hrest, hdisjoint⟩
  have hadopt : f.Adoptable n :=
    ⟨fun c hc => h.mem_iff.mp (List.mem_append_left _ hc), hchildren, hn⟩
  have hnew : f.size ∉ rest := fun hmem =>
    Nat.lt_irrefl _ (h.mem_iff.mp (List.mem_append_right _ hmem)).1
  refine ⟨wellFormed_add h.wellFormed hadopt, ?_, List.nodup_cons.mpr ⟨hnew, hrest⟩, ?_⟩
  · intro c p hlink
    rcases (link_add hadopt).mp hlink with hold | ⟨hc, rfl⟩
    · exact h.older hold
    · exact (hadopt.free c hc).1
  · intro i
    rw [List.mem_cons]
    constructor
    · rintro (rfl | hi)
      · exact free_add_self hadopt
      · exact free_add_of_not_mem (h.mem_iff.mp (List.mem_append_right _ hi))
          fun hc => hdisjoint hc hi
    · rintro ⟨hlt, hnone⟩
      by_cases hi : i = f.size
      · exact Or.inl hi
      · have hold : i < f.size := by
          rw [size_add] at hlt
          exact Nat.lt_of_le_of_ne (Nat.le_of_lt_succ hlt) hi
        by_cases hc : i ∈ childrenOf n
        · rw [parent_add_of_mem hold hc] at hnone
          cases hnone
        · rw [parent_add_of_ne hi hc] at hnone
          have hroot := h.mem_iff.mpr ⟨hold, hnone⟩
          exact Or.inr ((List.mem_append.mp hroot).resolve_left hc)

/-!
## One tree
-/

theorem Grown.exists_root (h : f.Grown roots) (hi : i < f.size) :
    ∃ r ∈ roots, f.Within i r := by
  -- Parents are younger, so the climb from a node ends before the size is reached.
  induction hk : f.size - i using Nat.strong_induction_on generalizing i with
  | h k ih =>
      cases hparent : f.parent (some i) with
      | none => exact ⟨i, h.mem_iff.mpr ⟨hi, hparent⟩, .refl⟩
      | some p =>
          have hlink : f.Link i p := hparent
          have hp := h.wellFormed.lt_size_of_link hlink
          have hlt : f.size - p < k := hk ▸ Nat.sub_lt_sub_left hi (h.older hlink)
          rcases ih (f.size - p) hlt hp rfl with ⟨r, hr, hpath⟩
          exact ⟨r, hr, .head hlink hpath⟩

theorem Grown.preorder_perm (h : f.Grown [i]) :
    (f.preorder (some i)).Perm (List.range f.size) := by
  have hfree := h.mem_iff.mp (List.mem_singleton_self i)
  refine (List.perm_ext_iff_of_nodup (h.wellFormed.nodup_preorder hfree.1)
    List.nodup_range).mpr fun j => ?_
  rw [h.wellFormed.mem_preorder hfree.1, List.mem_range]
  constructor
  · intro hwithin
    exact lt_size_of_within hwithin hfree.1
  · intro hj
    rcases h.exists_root hj with ⟨r, hr, hpath⟩
    exact List.mem_singleton.mp hr ▸ hpath

/-!
## Changes of payload
-/

/-- What a node says about the shape of the forest. -/
def shape (n : Node Slot) : List Slot × Option (List Slot) × Bool × Bool × Bool × Bool :=
  (n.slots, n.entries?, n.isStatementLevel, n.surroundsStatements, n.isMemberLevel, n.isClass)

/-- What a cell says about its place in the source and about the shape of the forest. -/
def outline (c : Cell) :
    (Nat × Nat) × Slot × List Slot × Option (List Slot) × Bool × Bool × Bool × Bool :=
  ((c.start, c.stop), c.parent, shape c.node)

/-- Forests that differ in the payload of their nodes only. -/
def Alike (f g : Forest) : Prop :=
  ∀ i, (g.cell? (some i)).map outline = (f.cell? (some i)).map outline

theorem Alike.refl (f : Forest) : f.Alike f :=
  fun _ => rfl

theorem Alike.trans {k : Forest} (h : f.Alike g) (h' : g.Alike k) : f.Alike k :=
  fun i => (h' i).trans (h i)

theorem Alike.symm (h : f.Alike g) : g.Alike f :=
  fun i => (h i).symm

theorem Alike.lt_size (h : f.Alike g) (hi : i < f.size) : i < g.size := by
  rw [← cell?_isSome, ← Option.isSome_map (f := outline), h, Option.isSome_map, cell?_isSome]
  exact hi

theorem Alike.parent (h : f.Alike g) : g.parent (some i) = f.parent (some i) := by
  have hcell : ∀ k : Forest, k.parent (some i) = ((k.cell? (some i)).map outline).bind (·.2.1) := by
    intro k
    rw [parent_eq, Option.bind_map]
    rfl
  rw [hcell, hcell, h]

theorem Alike.link {a b : NodeId} (h : f.Alike g) : g.Link a b ↔ f.Link a b := by
  rw [Link, Link, h.parent]

theorem Alike.within {a b : NodeId} (h : f.Alike g) : g.Within a b ↔ f.Within a b :=
  ⟨ReflTransGen.mono (fun _ _ => h.link.mp) a b, ReflTransGen.mono (fun _ _ => h.link.mpr) a b⟩

theorem Alike.children (h : f.Alike g) : g.children (some p) = f.children (some p) := by
  have hcell : ∀ k : Forest, k.children (some p) =
      (((k.cell? (some p)).map outline).map fun o => o.2.2.1.filterMap id).getD [] := by
    intro k
    rw [children_eq, Option.map_map]
    rfl
  rw [hcell, hcell, h]

theorem Alike.shape_eq {m : Node Slot} (h : f.Alike g) (hn : f.node? (some i) = some n)
    (hm : g.node? (some i) = some m) : shape m = shape n := by
  have hsame := h i
  rw [node?_eq, Option.map_eq_some_iff] at hn hm
  rcases hn with ⟨c, hc, rfl⟩
  rcases hm with ⟨d, hd, rfl⟩
  rw [hc, hd] at hsame
  exact congrArg (·.2.2) (Option.some.inj hsame)

theorem Alike.wellFormed (h : f.Alike g) (hf : f.WellFormed) : g.WellFormed := by
  refine .of_nodup ?_ ?_ ?_ ?_ ?_
  · intro p c hc
    rw [h.children] at hc
    exact h.lt_size (hf.filled hc)
  · intro p
    rw [h.children]
    exact hf.nodup p
  · intro p c
    rw [h.parent, h.children]
    exact hf.linked
  · intro i m hm
    have hi : i < f.size := h.symm.lt_size (lt_size_of_node? hm)
    have hentries : m.entries? = f.cells[i].node.entries? :=
      congrArg (·.2.1) (h.shape_eq (node?_of_lt hi) hm)
    intro entries hsome
    exact hf.full (node?_of_lt hi) entries (hentries ▸ hsome)
  · intro i hcycle
    have hlink : ∀ a b, g.Link a b → f.Link a b := fun a b hab => h.parent.symm.trans hab
    exact hf.acyclic i (TransGen.mono hlink i i hcycle)

theorem Grown.of_alike (h : f.Alike g) (hf : f.Grown roots) : g.Grown roots := by
  refine ⟨h.wellFormed hf.wellFormed, ?_, hf.nodup, ?_⟩
  · intro c p hlink
    exact hf.older (h.parent.symm.trans hlink)
  · intro i
    rw [hf.mem_iff, Free, Free, h.parent]
    exact and_congr_left fun _ => ⟨h.lt_size, h.symm.lt_size⟩

/-- The shape that a node of the forest has, whatever its payload. -/
def HasShape (f : Forest) (i : NodeId) (m : Node Slot) : Prop :=
  ∃ n, f.node? (some i) = some n ∧ shape m = shape n

theorem Alike.hasShape {m : Node Slot} (h : f.Alike g) (hm : g.node? (some i) = some m) :
    f.HasShape i m := by
  have hnode := node?_of_lt (h.symm.lt_size (lt_size_of_node? hm))
  exact ⟨_, hnode, h.shape_eq hnode hm⟩

/-- A node makes way for one of the same shape. -/
theorem Alike.setNode {m : Node Slot} (h : f.Alike g) (hm : f.HasShape i m) :
    f.Alike (g.setNode i m) := by
  rcases hm with ⟨n, hn, hshape⟩
  intro j
  rw [cell?_setNode, ← h j, Option.map_map]
  by_cases hj : j = i
  · have hnode := node?_of_lt (h.lt_size (lt_size_of_node? hn))
    have hshape' := h.shape_eq hn hnode
    rw [hj, cell?_of_lt (h.lt_size (lt_size_of_node? hn))]
    simp [outline, hshape, hshape']
  · simp [hj, Function.comp_def]

theorem Alike.stands {tier : Tier} (h : f.Alike g) (hi : f.Stands tier i) : g.Stands tier i := by
  cases tier <;>
    (rcases hi with ⟨n, hn, hlevel⟩
     have hnode := node?_of_lt (h.lt_size (lt_size_of_node? hn))
     have hshape := h.shape_eq hn hnode)
  case expression => exact ⟨_, hnode, (congrArg (·.2.2.1) hshape).trans hlevel⟩
  case member => exact ⟨_, hnode, (congrArg (·.2.2.2.2.1) hshape).trans hlevel⟩

theorem Alike.tiered (h : f.Alike g) (hf : f.Tiered) : g.Tiered := by
  have hback : ∀ {p m c}, g.node? (some p) = some m → c ∈ childrenOf m →
      ∃ n, f.node? (some p) = some n ∧ shape m = shape n ∧ c ∈ childrenOf n := by
    intro p m c hm hc
    obtain ⟨n, hn⟩ : ∃ n, f.node? (some p) = some n :=
      ⟨_, node?_of_lt (h.symm.lt_size (lt_size_of_node? hm))⟩
    have hshape := h.shape_eq hn hm
    have hslots : m.slots = n.slots := congrArg (·.1) hshape
    exact ⟨n, hn, hshape, mem_childrenOf.mpr (hslots ▸ mem_childrenOf.mp hc)⟩
  constructor
  · intro p m c hm hlevel hc
    obtain ⟨n, hn, hshape, hc'⟩ := hback hm hc
    have hinner := hf.layered hn ((congrArg (·.2.2.2.1) hshape).symm.trans hlevel) hc'
    exact h.stands (show f.Stands .expression c from hinner)
  · intro p m c hm hclass hc
    obtain ⟨n, hn, hshape, hc'⟩ := hback hm hc
    exact h.stands (hf.members hn ((congrArg (·.2.2.2.2.2) hshape).symm.trans hclass) hc')

end Forest

/-!
## Nested literals

A path down a tree passes literals of arrays and objects. A new node that is such a literal adds
one to the paths through its children, and a literal that becomes a pattern is counted no more.
-/

/-- A literal of an array or an object. -/
def Node.isCollection {α : Type} : Node α → Bool
  | .list .arrayLiteral _ => true
  | .list .objectLiteral _ => true
  | _ => false

namespace Forest

variable {f g k : Forest} {n : Node Slot} {i : NodeId} {bound bound' start stop : Nat}

/-- At most so many literals of arrays and objects lie on a path down from the node. -/
inductive Shallow (f : Forest) : Nat → NodeId → Prop
  | node {inner bound i n} (hn : f.node? (some i) = some n)
      (hchildren : ∀ c ∈ childrenOf n, f.Shallow inner c)
      (hle : inner + n.isCollection.toNat ≤ bound) : f.Shallow bound i

theorem Shallow.mono (h : f.Shallow bound i) (hle : bound ≤ bound') : f.Shallow bound' i := by
  cases h with
  | node hn hchildren hinner => exact .node hn hchildren (Nat.le_trans hinner hle)

/-- The literals on a path are as many as the bound allows. -/
theorem Shallow.countP_le (h : f.Shallow bound i) {path : List NodeId}
    (hpath : (i :: path).IsChain fun parent child => child ∈ f.children (some parent)) :
    (i :: path).countP (fun j => f.satisfies (some j) Node.isCollection) ≤ bound := by
  induction h generalizing path with
  | @node inner bound i n hn _ hle ih =>
      have hself : f.satisfies (some i) Node.isCollection = n.isCollection := by
        rw [satisfies, hn, Option.any_some]
      have hrest : path.countP (fun j => f.satisfies (some j) Node.isCollection) ≤ inner := by
        cases path with
        | nil => exact Nat.zero_le _
        | cons c path =>
            obtain ⟨hc, hpath⟩ := List.isChain_cons_cons.mp hpath
            rw [children_of_node? hn] at hc
            exact ih c hc hpath
      rw [List.countP_cons, hself]
      cases hcollection : n.isCollection with
      | true =>
          rw [hcollection] at hle
          exact Nat.le_trans (Nat.add_le_add_right hrest 1) hle
      | false =>
          rw [hcollection] at hle
          exact Nat.le_trans hrest hle

/-!
## Forests that grow
-/

/-- All nodes of the first forest are in the second and have the same children there, and none of
them has become a literal. -/
def Eases (f g : Forest) : Prop :=
  ∀ ⦃i n⦄, f.node? (some i) = some n → ∃ m, g.node? (some i) = some m ∧
    childrenOf m = childrenOf n ∧ (m.isCollection = true → n.isCollection = true)

theorem Eases.refl (f : Forest) : f.Eases f :=
  fun _ n hn => ⟨n, hn, rfl, id⟩

theorem Eases.trans (h : f.Eases g) (h' : g.Eases k) : f.Eases k := by
  intro i n hn
  obtain ⟨m, hm, hchildren, hcollection⟩ := h hn
  obtain ⟨m', hm', hchildren', hcollection'⟩ := h' hm
  exact ⟨m', hm', hchildren'.trans hchildren, hcollection ∘ hcollection'⟩

theorem eases_add : f.Eases (f.add n start stop).2 := by
  intro i m hm
  have hne : i ≠ f.size := Nat.ne_of_lt (lt_size_of_node? hm)
  exact ⟨m, (node?_add_of_ne hne).trans hm, rfl, id⟩

/-- Forests of the same shape differ in the payload of their nodes only. -/
theorem Alike.eases (h : f.Alike g)
    (hcollection : ∀ i, g.satisfies (some i) Node.isCollection = true →
      f.satisfies (some i) Node.isCollection = true) : f.Eases g := by
  intro i n hn
  have hm := node?_of_lt (h.lt_size (lt_size_of_node? hn))
  have hslots := congrArg (·.1) (h.shape_eq hn hm)
  refine ⟨_, hm, congrArg (List.filterMap id) hslots, fun hc => ?_⟩
  have hsome := hcollection i (by rw [satisfies, hm]; exact hc)
  rwa [satisfies, hn] at hsome

theorem Shallow.eased (h : f.Shallow bound i) (hfg : f.Eases g) : g.Shallow bound i := by
  induction h with
  | @node inner bound i n hn _ hle ih =>
      obtain ⟨m, hm, hchildren, hcollection⟩ := hfg hn
      have hcount : m.isCollection.toNat ≤ n.isCollection.toNat := by
        cases hm' : m.isCollection with
        | true => exact Nat.le_of_eq (by rw [hcollection hm'])
        | false => exact Nat.zero_le _
      refine .node hm (fun c hc => ih c (hchildren ▸ hc)) ?_
      exact Nat.le_trans (Nat.add_le_add_left hcount inner) hle

theorem shallow_add_self (h : ∀ c ∈ childrenOf n, f.Shallow bound c)
    (hle : bound + n.isCollection.toNat ≤ bound') :
    (f.add n start stop).2.Shallow bound' f.size :=
  .node node?_add_self (fun c hc => (h c hc).eased eases_add) hle

end Forest
end Untangle
