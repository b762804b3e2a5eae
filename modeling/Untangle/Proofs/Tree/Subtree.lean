import Mathlib.Data.Finset.Card
import Mathlib.Data.Finset.Range
import Untangle.Proofs.Tree.WellFormed

/-!
# Subtrees

The subtree of a node consists of the nodes from which climbing reaches it. Its size, the weight of
the node, goes down from a node to its children, so that it bounds every walk downwards.
-/

namespace Untangle
namespace Forest

open Relation

variable {f : Forest} {i j c p : NodeId}

/-!
## Climbing
-/

theorem Link.unique {q : NodeId} (hp : f.Link c p) (hq : f.Link c q) : p = q :=
  Option.some.inj (hp.symm.trans hq)

theorem WellFormed.not_within_of_link (h : f.WellFormed) (hlink : f.Link c p) :
    ¬ f.Within p c :=
  fun hpath => h.acyclic c (TransGen.head' hlink hpath)

/-- The subtrees of two children of one node have no node in common. -/
theorem WellFormed.siblings_disjoint (h : f.WellFormed) {c' : NodeId} (hc : f.Link c p)
    (hc' : f.Link c' p) (hj : f.Within j c) (hj' : f.Within j c') : c = c' := by
  have hunique : Relator.RightUnique f.Link := fun _ _ _ => Link.unique
  rcases ReflTransGen.total_of_right_unique hunique hj hj' with hpath | hpath
  · rcases ReflTransGen.cases_head hpath with heq | ⟨q, hlink, hrest⟩
    · exact heq
    · exact absurd (Link.unique hlink hc ▸ hrest) (h.not_within_of_link hc')
  · rcases ReflTransGen.cases_head hpath with heq | ⟨q, hlink, hrest⟩
    · exact heq.symm
    · exact absurd (Link.unique hlink hc' ▸ hrest) (h.not_within_of_link hc)

/-- The subtrees of two roots have no node in common. -/
theorem roots_disjoint {r r' : NodeId} (hr : f.parent (some r) = none)
    (hr' : f.parent (some r') = none) (hj : f.Within j r) (hj' : f.Within j r') : r = r' := by
  have hunique : Relator.RightUnique f.Link := fun _ _ _ => Link.unique
  have hstop : ∀ {r r'}, f.parent (some r) = none → f.Within r r' → r = r' := by
    intro r r' hr hpath
    rcases ReflTransGen.cases_head hpath with heq | ⟨q, hlink, _⟩
    · exact heq
    · cases hr.symm.trans hlink
  rcases ReflTransGen.total_of_right_unique hunique hj hj' with hpath | hpath
  · exact hstop hr hpath
  · exact (hstop hr' hpath).symm

theorem within_iff : f.Within j i ↔ j = i ∨ ∃ c, f.Link c i ∧ f.Within j c := by
  constructor
  · intro h
    rcases ReflTransGen.cases_tail h with heq | ⟨c, hpath, hlink⟩
    · exact Or.inl heq.symm
    · exact Or.inr ⟨c, hlink, hpath⟩
  · rintro (rfl | ⟨c, hlink, hpath⟩)
    · exact .refl
    · exact hpath.tail hlink

theorem lt_size_of_within (h : f.Within j i) (hi : i < f.size) : j < f.size := by
  rcases ReflTransGen.cases_head h with heq | ⟨c, hlink, _⟩
  · exact heq ▸ hi
  · exact lt_size_of_parent hlink

/-!
## Weights
-/

open Classical in
/-- The number of nodes in a subtree. -/
noncomputable def weight (f : Forest) (i : NodeId) : Nat :=
  ((Finset.range f.size).filter fun j => f.Within j i).card

theorem weight_le_size (f : Forest) (i : NodeId) : f.weight i ≤ f.size := by
  classical
  exact (Finset.card_filter_le _ _).trans (Finset.card_range _).le

theorem weight_pos (hi : i < f.size) : 0 < f.weight i := by
  classical
  refine Finset.card_pos.mpr ⟨i, Finset.mem_filter.mpr ⟨Finset.mem_range.mpr hi, ?_⟩⟩
  exact ReflTransGen.refl

theorem WellFormed.weight_lt (h : f.WellFormed) (hlink : f.Link c p) :
    f.weight c < f.weight p := by
  classical
  refine Finset.card_lt_card (Finset.ssubset_iff_of_subset ?_ |>.mpr ⟨p, ?_, ?_⟩)
  · intro j hj
    rw [Finset.mem_filter] at hj ⊢
    exact ⟨hj.1, hj.2.tail hlink⟩
  · exact Finset.mem_filter.mpr ⟨Finset.mem_range.mpr (h.lt_size_of_link hlink), .refl⟩
  · intro hmem
    exact h.not_within_of_link hlink (Finset.mem_filter.mp hmem).2

/-!
## Preorder
-/

theorem foldr_preorderOnto (f : Forest) (fuel : Nat) (slots : List Slot) (tail : List NodeId)
    (h : ∀ s tail, f.preorderOnto fuel s tail = f.preorderOnto fuel s [] ++ tail) :
    slots.foldr (f.preorderOnto fuel) tail =
      slots.flatMap (f.preorderOnto fuel · []) ++ tail := by
  induction slots with
  | nil => rfl
  | cons s slots ih =>
      rw [List.foldr_cons, ih, h, List.flatMap_cons, List.append_assoc]

theorem preorderOnto_eq_append (f : Forest) (fuel : Nat) (s : Slot) (tail : List NodeId) :
    f.preorderOnto fuel s tail = f.preorderOnto fuel s [] ++ tail := by
  induction fuel generalizing s tail with
  | zero => rfl
  | succ fuel ih =>
      cases s with
      | none => rfl
      | some i =>
          cases hcell : f.cells[i]? with
          | none => simp [preorderOnto, hcell]
          | some cell =>
              simp only [preorderOnto, hcell]
              rw [foldr_preorderOnto f fuel _ _ ih, foldr_preorderOnto f fuel _ [] ih]
              simp

theorem flatMap_preorderOnto (f : Forest) (fuel : Nat) (slots : List Slot) :
    slots.flatMap (f.preorderOnto fuel · []) =
      (slots.filterMap id).flatMap fun c => f.preorderOnto fuel (some c) [] := by
  induction slots with
  | nil => rfl
  | cons s slots ih =>
      cases s with
      | none => cases fuel <;> simpa [preorderOnto] using ih
      | some c => simpa using ih

/-- A walk with fuel left lists a node and then the subtrees in its slots. -/
theorem preorder_none (f : Forest) : f.preorder none = [] := by
  rw [preorder]
  cases f.size <;> rfl

theorem preorderOnto_succ (hi : i < f.size) (fuel : Nat) :
    f.preorderOnto (fuel + 1) (some i) [] =
      i :: (f.children (some i)).flatMap fun c => f.preorderOnto fuel (some c) [] := by
  have hcell := cell?_of_lt hi
  rw [children_of_cell? hcell, childrenOf, ← flatMap_preorderOnto]
  rw [cell?_some] at hcell
  simp only [preorderOnto, hcell]
  rw [foldr_preorderOnto f fuel _ _ (f.preorderOnto_eq_append fuel), List.append_nil]

/-- With enough fuel a walk reaches exactly the subtree. -/
theorem WellFormed.mem_preorderOnto (h : f.WellFormed) (hi : i < f.size) {fuel : Nat}
    (hfuel : f.weight i ≤ fuel) : j ∈ f.preorderOnto fuel (some i) [] ↔ f.Within j i := by
  induction fuel generalizing i with
  | zero => exact absurd hfuel (Nat.not_le.mpr (weight_pos hi))
  | succ fuel ih =>
      rw [preorderOnto_succ hi, within_iff, List.mem_cons, List.mem_flatMap]
      refine or_congr_right (exists_congr fun c => ?_)
      rw [← h.linked]
      refine and_congr_right fun hlink => ih (lt_size_of_parent hlink) ?_
      exact Nat.le_of_lt_succ (Nat.lt_of_lt_of_le (h.weight_lt hlink) hfuel)

theorem WellFormed.nodup_preorderOnto (h : f.WellFormed) (hi : i < f.size) {fuel : Nat}
    (hfuel : f.weight i ≤ fuel) : (f.preorderOnto fuel (some i) []).Nodup := by
  induction fuel generalizing i with
  | zero => exact List.nodup_nil
  | succ fuel ih =>
      have hchild : ∀ c ∈ f.children (some i),
          f.Link c i ∧ c < f.size ∧ f.weight c ≤ fuel := by
        intro c hc
        have hlink := h.linked.mpr hc
        exact ⟨hlink, h.filled hc,
          Nat.le_of_lt_succ (Nat.lt_of_lt_of_le (h.weight_lt hlink) hfuel)⟩
      rw [preorderOnto_succ hi, List.nodup_cons, List.nodup_flatMap]
      refine ⟨?_, ?_, ?_⟩
      · intro hmem
        rcases List.mem_flatMap.mp hmem with ⟨c, hc, hic⟩
        rcases hchild c hc with ⟨hlink, hlt, hweight⟩
        exact h.not_within_of_link hlink ((h.mem_preorderOnto hlt hweight).mp hic)
      · intro c hc
        rcases hchild c hc with ⟨_, hlt, hweight⟩
        exact ih hlt hweight
      · apply (h.nodup i).imp_of_mem
        intro c c' hc hc' hne j hj hj'
        rcases hchild c hc with ⟨hlink, hlt, hweight⟩
        rcases hchild c' hc' with ⟨hlink', hlt', hweight'⟩
        exact hne (h.siblings_disjoint hlink hlink' ((h.mem_preorderOnto hlt hweight).mp hj)
          ((h.mem_preorderOnto hlt' hweight').mp hj'))

/-- More fuel than the subtree needs makes no difference. -/
theorem WellFormed.preorderOnto_congr (h : f.WellFormed) (hi : i < f.size) {fuel fuel' : Nat}
    (hfuel : f.weight i ≤ fuel) (hfuel' : f.weight i ≤ fuel') :
    f.preorderOnto fuel (some i) [] = f.preorderOnto fuel' (some i) [] := by
  induction fuel generalizing i fuel' with
  | zero => exact absurd hfuel (Nat.not_le.mpr (weight_pos hi))
  | succ fuel ih =>
      cases fuel' with
      | zero => exact absurd hfuel' (Nat.not_le.mpr (weight_pos hi))
      | succ fuel' =>
          rw [preorderOnto_succ hi, preorderOnto_succ hi]
          congr 1
          refine List.flatMap_congr fun c hc => ?_
          have hlt := h.weight_lt (h.linked.mpr hc)
          exact ih (h.filled hc) (Nat.le_of_lt_succ (Nat.lt_of_lt_of_le hlt hfuel))
            (Nat.le_of_lt_succ (Nat.lt_of_lt_of_le hlt hfuel'))

/-- A node comes first, and then the subtrees of its children follow in order. -/
theorem WellFormed.preorder_children (h : f.WellFormed) (hi : i < f.size) :
    f.preorder (some i) = i :: (f.children (some i)).flatMap fun c => f.preorder (some c) := by
  have hweight := f.weight_le_size i
  have hmore := h.preorderOnto_congr hi hweight (Nat.le_succ_of_le hweight)
  exact hmore.trans (preorderOnto_succ hi f.size)

theorem WellFormed.preorder_eq {n : Node Slot} (h : f.WellFormed)
    (hn : f.node? (some i) = some n) :
    f.preorder (some i) = i :: n.slots.flatMap f.preorder := by
  rw [h.preorder_children (lt_size_of_node? hn), children_of_node? hn, childrenOf]
  exact congrArg (i :: ·) (flatMap_preorderOnto f f.size n.slots).symm

theorem WellFormed.mem_preorder (h : f.WellFormed) (hi : i < f.size) :
    j ∈ f.preorder (some i) ↔ f.Within j i :=
  h.mem_preorderOnto hi (f.weight_le_size i)

theorem WellFormed.nodup_preorder (h : f.WellFormed) (hi : i < f.size) :
    (f.preorder (some i)).Nodup :=
  h.nodup_preorderOnto hi (f.weight_le_size i)

end Forest
end Untangle
