import Untangle.Proofs.Tree.WellFormed

/-!
# Growing a forest

A new node may adopt free nodes, and the forest stays well-formed: all new links lead to the new
node, and no link leaves it.
-/

namespace Untangle
namespace Forest

open Relation

/-!
## Cycles
-/

section Cycles

variable {α : Type} {r r' : α → α → Prop} {S : α → Prop} {p : α}

/-- When all new edges lead to `p`, and none of them starts above `p`, a path uses at most one. -/
theorem transGen_of_new_edges (hstep : ∀ a b, r' a b → r a b ∨ (S a ∧ b = p))
    (hfree : ∀ a, S a → ¬ ReflTransGen r p a) {a b : α} (h : TransGen r' a b) :
    TransGen r a b ∨ ∃ s, S s ∧ ReflTransGen r a s ∧ ReflTransGen r p b := by
  induction h with
  | single hab =>
      rcases hstep _ _ hab with hold | ⟨ha, hb⟩
      · exact Or.inl (.single hold)
      · exact Or.inr ⟨a, ha, .refl, hb ▸ .refl⟩
  | @tail b c _ hbc ih =>
      rcases hstep _ _ hbc with hold | ⟨hb, hc⟩
      · rcases ih with hab | ⟨s, hs, has, hpb⟩
        · exact Or.inl (hab.tail hold)
        · exact Or.inr ⟨s, hs, has, hpb.tail hold⟩
      · rcases ih with hab | ⟨s, _, _, hpb⟩
        · exact Or.inr ⟨b, hb, hab.to_reflTransGen, hc ▸ .refl⟩
        · exact absurd hpb (hfree b hb)

theorem acyclic_of_new_edges (hstep : ∀ a b, r' a b → r a b ∨ (S a ∧ b = p))
    (hfree : ∀ a, S a → ¬ ReflTransGen r p a) (hr : ∀ a, ¬ TransGen r a a) (a : α) :
    ¬ TransGen r' a a := by
  intro hcycle
  rcases transGen_of_new_edges hstep hfree hcycle with hold | ⟨s, hs, has, hpa⟩
  · exact hr a hold
  · exact hfree s hs (hpa.trans has)

end Cycles

/-!
## Adding a node
-/

section Add

variable {f : Forest} {n : Node Slot} {start stop : Nat} {i j p : NodeId}

theorem parent_add_of_ne (hj : j ≠ f.size) (hmem : j ∉ childrenOf n) :
    (f.add n start stop).2.parent (some j) = f.parent (some j) := by
  rw [parent_eq, parent_eq, cell?_add, if_neg hj]
  cases f.cell? (some j) with
  | none => rfl
  | some c => simp [hmem]

theorem parent_add_of_mem (hlt : j < f.size) (hmem : j ∈ childrenOf n) :
    (f.add n start stop).2.parent (some j) = some f.size := by
  rw [parent_eq, cell?_add, if_neg (Nat.ne_of_lt hlt), cell?_of_lt hlt]
  simp [hmem]

theorem parent_add_self (hmem : f.size ∉ childrenOf n) :
    (f.add n start stop).2.parent (some f.size) = none := by
  rw [parent_eq, cell?_add, if_pos rfl]
  simp [hmem]

theorem node?_add_of_ne (hp : p ≠ f.size) :
    (f.add n start stop).2.node? (some p) = f.node? (some p) := by
  rw [node?_eq, node?_eq, cell?_add, if_neg hp, Option.map_map]
  rfl

theorem node?_add_self : (f.add n start stop).2.node? (some f.size) = some n := by
  rw [node?_eq, cell?_add, if_pos rfl]
  rfl

theorem children_add_of_ne (hp : p ≠ f.size) :
    (f.add n start stop).2.children (some p) = f.children (some p) := by
  rw [children, children, node?_add_of_ne hp]

theorem children_add_self : (f.add n start stop).2.children (some f.size) = childrenOf n :=
  children_of_node? node?_add_self

/-- The span of a node in the source. -/
def span? (f : Forest) (s : Slot) : Option (Nat × Nat) :=
  (f.cell? s).map fun c => (c.start, c.stop)

theorem span?_add_of_ne (hp : p ≠ f.size) :
    (f.add n start stop).2.span? (some p) = f.span? (some p) := by
  rw [span?, span?, cell?_add, if_neg hp, Option.map_map]
  rfl

theorem span?_add_self : (f.add n start stop).2.span? (some f.size) = some (start, stop) := by
  rw [span?, cell?_add, if_pos rfl]
  rfl

/-- What a new node needs: its children are different free nodes. -/
structure Adoptable (f : Forest) (n : Node Slot) : Prop where
  free : ∀ c ∈ childrenOf n, f.Free c
  nodup : (childrenOf n).Nodup
  full : FullEntries n

theorem Adoptable.ne_size (h : f.Adoptable n) : f.size ∉ childrenOf n :=
  fun hmem => Nat.lt_irrefl _ (h.free _ hmem).1

/-- A node without parts needs nothing. -/
theorem adoptable_of_leaf (hslots : n.slots = []) (hentries : n.entries? = none) :
    f.Adoptable n :=
  ⟨by simp [childrenOf, hslots], by simp [childrenOf, hslots], by simp [FullEntries, hentries]⟩

theorem link_add (h : f.Adoptable n) {a b : NodeId} :
    (f.add n start stop).2.Link a b ↔ f.Link a b ∨ (a ∈ childrenOf n ∧ b = f.size) := by
  by_cases hmem : a ∈ childrenOf n
  · have hfree := h.free a hmem
    simp [Link, parent_add_of_mem hfree.1 hmem, hfree.2, hmem, eq_comm]
  · by_cases ha : a = f.size
    · have hnone : f.parent (some a) = none := by
        cases hp : f.parent (some a) with
        | none => rfl
        | some q => exact absurd (lt_size_of_parent hp) (ha ▸ Nat.lt_irrefl _)
      simp [Link, ha, parent_add_self h.ne_size, h.ne_size, ha ▸ hnone]
    · simp [Link, parent_add_of_ne ha hmem, hmem]

theorem WellFormed.not_link_size (h : f.WellFormed) (a : NodeId) : ¬ f.Link a f.size :=
  fun hlink => Nat.lt_irrefl _ (h.lt_size_of_link hlink)

theorem not_link_of_size_le (h : f.size ≤ i) (a : NodeId) : ¬ f.Link i a :=
  fun hlink => Nat.not_lt.mpr h (lt_size_of_parent hlink)

theorem wellFormed_add (h : f.WellFormed) (hn : f.Adoptable n) :
    (f.add n start stop).2.WellFormed := by
  refine .of_nodup ?_ ?_ ?_ ?_ ?_
  · intro p c hc
    rw [size_add]
    by_cases hp : p = f.size
    · rw [hp, children_add_self] at hc
      exact Nat.lt_succ_of_lt (hn.free c hc).1
    · rw [children_add_of_ne hp] at hc
      exact Nat.lt_succ_of_lt (h.filled hc)
  · intro p
    by_cases hp : p = f.size
    · rw [hp, children_add_self]
      exact hn.nodup
    · rw [children_add_of_ne hp]
      exact h.nodup p
  · intro p c
    change Link _ c p ↔ _
    rw [link_add hn]
    by_cases hp : p = f.size
    · rw [hp, children_add_self]
      simp [h.not_link_size]
    · rw [children_add_of_ne hp]
      simpa [hp, Link] using h.linked
  · intro i m hm
    by_cases hi : i = f.size
    · rw [hi, node?_add_self] at hm
      exact Option.some.inj hm ▸ hn.full
    · rw [node?_add_of_ne hi] at hm
      exact h.full hm
  · refine acyclic_of_new_edges (fun a b => (link_add hn).mp) ?_ h.acyclic
    intro c hc hpath
    rcases ReflTransGen.cases_head hpath with heq | ⟨b, hlink, _⟩
    · exact hn.ne_size (heq ▸ hc)
    · exact not_link_of_size_le (Nat.le_refl _) b hlink

theorem free_add_self (hn : f.Adoptable n) : (f.add n start stop).2.Free f.size :=
  ⟨by rw [size_add]; exact Nat.lt_succ_self _, parent_add_self hn.ne_size⟩

theorem free_add_of_not_mem (hfree : f.Free i) (hmem : i ∉ childrenOf n) :
    (f.add n start stop).2.Free i := by
  constructor
  · rw [size_add]
    exact Nat.lt_succ_of_lt hfree.1
  · rw [parent_add_of_ne (Nat.ne_of_lt hfree.1) hmem]
    exact hfree.2

/-- Outside the new node, subtrees stay what they were. -/
theorem within_of_add (hn : f.Adoptable n) (hj : j ≠ f.size)
    (h : (f.add n start stop).2.Within i j) : f.Within i j := by
  induction h using ReflTransGen.head_induction_on with
  | refl => exact .refl
  | head hlink hrest ih =>
      rcases (link_add hn).mp hlink with hold | ⟨_, hnew⟩
      · exact .head hold ih
      · rename_i a c
        rcases ReflTransGen.cases_head (hnew ▸ hrest) with heq | ⟨b, hlink', _⟩
        · exact absurd heq.symm hj
        · have hnone : (f.add n start stop).2.parent (some f.size) = none :=
            parent_add_self hn.ne_size
          rw [Link, hnone] at hlink'
          cases hlink'

/-- The subtree of the new node consists of itself and the subtrees of its children. -/
theorem within_add_self (hf : f.WellFormed) (hn : f.Adoptable n)
    (h : (f.add n start stop).2.Within i f.size) :
    i = f.size ∨ ∃ c ∈ childrenOf n, f.Within i c := by
  rcases ReflTransGen.cases_tail h with heq | ⟨c, hpath, hlink⟩
  · exact Or.inl heq.symm
  · rcases (link_add hn).mp hlink with hold | ⟨hc, _⟩
    · exact absurd hold (hf.not_link_size c)
    · exact Or.inr ⟨c, hc, within_of_add hn (Nat.ne_of_lt (hn.free c hc).1) hpath⟩

end Add

/-!
## A small forest
-/

/-- A block of the statements `a;` and `;`, and the name `b` outside of it. -/
def twoStatements : Forest :=
  let first := (empty.add (.name .identifier "a") 1 2).2.add
    (.operand .expressionStatement (some 0)) 1 3
  let second := first.2.add (.bare .emptyStatement) 3 4
  let block := second.2.add (.body .block [some 1, some 2]) 0 5
  (block.2.add (.name .identifier "b") 6 7).2

theorem wellFormed_twoStatements : twoStatements.WellFormed := by
  refine wellFormed_add (wellFormed_add (wellFormed_add (wellFormed_add (wellFormed_add
    wellFormed_empty ?_) ?_) ?_) ?_) ?_
  · exact adoptable_of_leaf rfl rfl
  · refine ⟨fun c hc => ?_, by decide, by simp [FullEntries, Node.entries?]⟩
    obtain rfl : c = 0 := List.mem_singleton.mp hc
    exact ⟨by decide, rfl⟩
  · exact adoptable_of_leaf rfl rfl
  · refine ⟨fun c hc => ?_, by decide, by simp [FullEntries, Node.entries?]⟩
    obtain rfl | rfl : c = 1 ∨ c = 2 := by simpa [childrenOf, Node.slots] using hc
    · exact ⟨by decide, rfl⟩
    · exact ⟨by decide, rfl⟩
  · exact adoptable_of_leaf rfl rfl

end Forest
end Untangle
