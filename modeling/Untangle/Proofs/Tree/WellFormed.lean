import Mathlib.Data.List.Nodup
import Mathlib.Logic.Relation
import Untangle.Proofs.Tree.Slots
import Untangle.Tree.Edit

/-!
# Well-formed forests

In a well-formed forest child slots and parent links tell the same story, and that story has no
cycles. The queries and the elementary updates of a forest are described by what they answer for
one cell.
-/

namespace Untangle
namespace Forest

/-!
## Links and subtrees
-/

/-- A node and its parent. -/
def Link (f : Forest) (child parent : NodeId) : Prop :=
  f.parent (some child) = some parent

/-- The first node lies in the subtree of the second. -/
def Within (f : Forest) (i j : NodeId) : Prop :=
  Relation.ReflTransGen f.Link i j

/-- An existing node without a parent. -/
def Free (f : Forest) (i : NodeId) : Prop :=
  i < f.size ∧ f.parent (some i) = none

/-- No entry of the list of children is empty. -/
def FullEntries (n : Node Slot) : Prop :=
  ∀ entries, n.entries? = some entries → none ∉ entries

structure WellFormed (f : Forest) : Prop where
  /-- Every filled slot holds a node that exists. -/
  filled : ∀ {p c}, c ∈ f.children (some p) → c < f.size
  /-- No node is in two slots of the forest. -/
  once : (f.cells.toList.flatMap fun cell => childrenOf cell.node).Nodup
  /-- The parent of a node is the node that has it in a slot. -/
  linked : ∀ {p c}, f.parent (some c) = some p ↔ c ∈ f.children (some p)
  full : ∀ {i n}, f.node? (some i) = some n → FullEntries n
  acyclic : ∀ i, ¬ Relation.TransGen f.Link i i

/-!
## One cell
-/

section Cells

variable (f : Forest) (i j : NodeId) (s : Slot)

theorem cell?_some : f.cell? (some i) = f.cells[i]? :=
  rfl

theorem node?_eq : f.node? s = (f.cell? s).map Cell.node :=
  rfl

theorem parent_eq : f.parent s = (f.cell? s).bind Cell.parent :=
  rfl

theorem children_eq : f.children s = ((f.cell? s).map fun c => childrenOf c.node).getD [] := by
  simp [children, node?, Function.comp_def]

theorem cell?_isSome : (f.cell? (some i)).isSome ↔ i < f.size := by
  simp [cell?_some, size]

theorem cell?_of_lt {f : Forest} {i : NodeId} (h : i < f.size) :
    f.cell? (some i) = some f.cells[i] := by
  rw [cell?_some]
  exact Array.getElem?_eq_getElem h

theorem lt_size_of_cell? {f : Forest} {i : NodeId} {c : Cell} (h : f.cell? (some i) = some c) :
    i < f.size := by
  rw [← cell?_isSome, h]
  rfl

theorem lt_size_of_node? {f : Forest} {i : NodeId} {n : Node Slot}
    (h : f.node? (some i) = some n) : i < f.size := by
  rw [node?_eq, Option.map_eq_some_iff] at h
  rcases h with ⟨c, hc, _⟩
  exact lt_size_of_cell? hc

theorem node?_of_lt {f : Forest} {i : NodeId} (h : i < f.size) :
    f.node? (some i) = some f.cells[i].node := by
  rw [node?_eq, cell?_of_lt h]
  rfl

theorem lt_size_of_parent {f : Forest} {i p : NodeId} (h : f.parent (some i) = some p) :
    i < f.size := by
  rw [parent_eq, Option.bind_eq_some_iff] at h
  rcases h with ⟨c, hc, _⟩
  exact lt_size_of_cell? hc

theorem lt_size_of_mem_children {f : Forest} {p c : NodeId} (h : c ∈ f.children (some p)) :
    p < f.size := by
  rw [← cell?_isSome]
  cases hp : f.cell? (some p) with
  | none => simp [children_eq, hp] at h
  | some cell => rfl

@[simp] theorem cell?_setParent (q : Slot) :
    (f.setParent s q).cell? (some j) =
      (f.cell? (some j)).map fun c => { c with parent := if s = some j then q else c.parent } := by
  cases s with
  | none =>
      simp [setParent]
  | some i =>
      rw [cell?_some, cell?_some]
      by_cases h : i = j
      · simp [setParent, Array.getElem?_modify, h]
      · simp [setParent, Array.getElem?_modify, h]

@[simp] theorem cell?_setNode (n : Node Slot) :
    (f.setNode i n).cell? (some j) =
      (f.cell? (some j)).map fun c => { c with node := if j = i then n else c.node } := by
  rw [cell?_some, cell?_some]
  by_cases h : i = j
  · simp [setNode, Array.getElem?_modify, h]
  · simp [setNode, Array.getElem?_modify, h, Ne.symm h]

variable {f i j} in
theorem node?_setNode_self {n : Node Slot} (h : i < f.size) :
    (f.setNode i n).node? (some i) = some n := by
  rw [node?_eq, cell?_setNode, cell?_of_lt h]
  simp

variable {f i j} in
theorem node?_setNode_of_ne {n : Node Slot} (h : j ≠ i) :
    (f.setNode i n).node? (some j) = f.node? (some j) := by
  simp [node?_eq, cell?_setNode, h]

theorem cell?_adopt (slots : List Slot) (q : Slot) :
    (slots.foldl (fun g s => g.setParent s q) f).cell? (some j) =
      (f.cell? (some j)).map fun c =>
        { c with parent := if some j ∈ slots then q else c.parent } := by
  induction slots generalizing f with
  | nil => simp
  | cons s slots ih =>
      rw [List.foldl_cons, ih, cell?_setParent, Option.map_map]
      congr 1
      funext c
      by_cases hmem : some j ∈ slots
      · simp [hmem]
      · by_cases hs : s = some j
        · simp [hs]
        · simp [hmem, hs, Ne.symm hs]

@[simp] theorem size_setParent (q : Slot) : (f.setParent s q).size = f.size := by
  cases s with
  | none => rfl
  | some i => simp [setParent, size]

@[simp] theorem size_setNode (n : Node Slot) : (f.setNode i n).size = f.size := by
  simp [setNode, size]

theorem size_adopt (slots : List Slot) (q : Slot) :
    (slots.foldl (fun g s => g.setParent s q) f).size = f.size := by
  induction slots generalizing f with
  | nil => rfl
  | cons s slots ih => rw [List.foldl_cons, ih, size_setParent]

@[simp] theorem addNew_fst (n : Node Slot) : (f.addNew n).1 = f.size :=
  rfl

@[simp] theorem size_add (n : Node Slot) (start stop : Nat) :
    (f.add n start stop).2.size = f.size + 1 := by
  have h := size_adopt (f.push ⟨n, start, stop, none⟩) ((childrenOf n).map some) (some f.size)
  rw [List.foldl_map] at h
  exact h.trans (by simp [push, size])

theorem cell?_add (n : Node Slot) (start stop : Nat) :
    (f.add n start stop).2.cell? (some j) =
      (if j = f.size then some ⟨n, start, stop, none⟩ else f.cell? (some j)).map fun c =>
        { c with parent := if j ∈ childrenOf n then some f.size else c.parent } := by
  have h := cell?_adopt (f.push ⟨n, start, stop, none⟩) j ((childrenOf n).map some) (some f.size)
  rw [List.foldl_map] at h
  apply h.trans
  by_cases hj : j = f.cells.size
  · simp [cell?_some, push, size, hj]
  · simp [cell?_some, push, size, Array.getElem?_push, hj]

end Cells

/-!
## Slots and links
-/

section Children

variable {f : Forest} {c p q : NodeId}

theorem children_of_cell? {cell : Cell} (h : f.cell? (some p) = some cell) :
    f.children (some p) = childrenOf cell.node := by
  rw [children_eq, h]
  rfl

theorem children_of_node? {n : Node Slot} (h : f.node? (some p) = some n) :
    f.children (some p) = childrenOf n := by
  rw [node?_eq, Option.map_eq_some_iff] at h
  rcases h with ⟨cell, hcell, rfl⟩
  exact children_of_cell? hcell

theorem mem_childrenOf {n : Node Slot} : c ∈ childrenOf n ↔ some c ∈ n.slots := by
  simp [childrenOf]

/-- That no node is in two slots follows from its parent link and the slots of each node. -/
theorem nodup_flatMap_children (hnodup : ∀ p, (f.children (some p)).Nodup)
    (hlinked : ∀ {p c}, c ∈ f.children (some p) → f.parent (some c) = some p) :
    (f.cells.toList.flatMap fun cell => childrenOf cell.node).Nodup := by
  have hcell : ∀ i (h : i < f.cells.toList.length),
      f.children (some i) = childrenOf f.cells.toList[i].node := by
    intro i h
    exact children_of_cell? (cell?_of_lt (f := f) h)
  rw [List.nodup_flatMap]
  constructor
  · intro cell hmem
    rcases List.getElem_of_mem hmem with ⟨i, hi, rfl⟩
    exact hcell i hi ▸ hnodup i
  · rw [List.pairwise_iff_getElem]
    intro i j hi hj hlt c hci hcj
    have hpi : f.parent (some c) = some i := hlinked ((hcell i hi).symm ▸ hci)
    have hpj : f.parent (some c) = some j := hlinked ((hcell j hj).symm ▸ hcj)
    have hsame := hpi.symm.trans hpj
    exact Nat.ne_of_lt hlt (Option.some.inj hsame)

theorem WellFormed.nodup (h : f.WellFormed) (p : NodeId) : (f.children (some p)).Nodup := by
  rw [children_eq]
  cases hp : f.cell? (some p) with
  | none => exact List.nodup_nil
  | some cell => exact (List.nodup_flatMap.mp h.once).1 cell (Array.mem_toList_iff.mpr
      (Array.mem_of_getElem? hp))

theorem WellFormed.of_nodup
    (filled : ∀ {p c}, c ∈ f.children (some p) → c < f.size)
    (nodup : ∀ p, (f.children (some p)).Nodup)
    (linked : ∀ {p c}, f.parent (some c) = some p ↔ c ∈ f.children (some p))
    (full : ∀ {i n}, f.node? (some i) = some n → FullEntries n)
    (acyclic : ∀ i, ¬ Relation.TransGen f.Link i i) : f.WellFormed :=
  ⟨filled, nodup_flatMap_children nodup linked.mpr, linked, full, acyclic⟩

theorem WellFormed.link_of_slot (h : f.WellFormed) {n : Node Slot}
    (hp : f.node? (some p) = some n) (hc : some c ∈ n.slots) : f.Link c p := by
  rw [Link, h.linked, children_of_node? hp, mem_childrenOf]
  exact hc

theorem WellFormed.lt_size_of_link (h : f.WellFormed) (hlink : f.Link c p) : p < f.size :=
  lt_size_of_mem_children (h.linked.mp hlink)

theorem wellFormed_empty : Forest.empty.WellFormed := by
  have hcell : ∀ i, Forest.empty.cell? (some i) = none := fun i => rfl
  refine .of_nodup ?_ ?_ ?_ ?_ ?_
  · intro p c hc
    simp [children_eq, hcell] at hc
  · intro p
    simp [children_eq, hcell]
  · intro p c
    simp [children_eq, parent_eq, hcell]
  · intro i n hn
    simp [node?_eq, hcell] at hn
  · intro i hcycle
    rcases Relation.TransGen.head'_iff.mp hcycle with ⟨p, hlink, _⟩
    simp [Link, parent_eq, hcell] at hlink

end Children
end Forest
end Untangle
