import Untangle.Proofs.Tree.Growth
import Untangle.Proofs.Tree.Subtree

/-!
# Climbing and walking

Whether a node is attached to a root is told by climbing from the node, which nodes there are below
the root by walking down. Both say the same. The walk lists the subtree of each node in one stretch,
the node itself first.
-/

namespace Untangle
namespace Forest

open Relation

variable {f : Forest} {root i p : NodeId}

/-!
## Climbing
-/

theorem within_of_isAttached (h : f.isAttached (some i) (some root) = true) : f.Within i root := by
  have hclimb : ∀ {fuel i}, (f.climb (some · == some root) fuel (some i)).isSome = true →
      f.Within i root := by
    intro fuel
    induction fuel with
    | zero => intro i hi; cases hi
    | succ fuel ih =>
        intro i hi
        by_cases heq : i = root
        · rw [heq]
          exact .refl
        · have hstep : (f.climb (some · == some root) fuel (f.parent (some i))).isSome = true := by
            simpa [climb, heq] using hi
          cases hparent : f.parent (some i) with
          | none =>
              rw [hparent] at hstep
              cases fuel <;> cases hstep
          | some p =>
              rw [hparent] at hstep
              exact .head hparent (ih hstep)
  exact hclimb h

theorem WellFormed.weight_le (h : f.WellFormed) (hi : f.Within i root) :
    f.weight i ≤ f.weight root := by
  induction hi with
  | refl => exact Nat.le_refl _
  | tail _ hlink ih => exact ih.trans (h.weight_lt hlink).le

/-- Weights go up along a path, so that a climb has no more steps than there are weights. -/
theorem WellFormed.climb_of_within (h : f.WellFormed) (hi : f.Within i root) {fuel : Nat}
    (hfuel : f.weight root < f.weight i + fuel) :
    (f.climb (some · == some root) fuel (some i)).isSome = true := by
  induction hi using ReflTransGen.head_induction_on generalizing fuel with
  | refl =>
      have hpos : fuel ≠ 0 := by omega
      obtain ⟨fuel, rfl⟩ := Nat.exists_eq_succ_of_ne_zero hpos
      simp [climb]
  | @head i q hlink hpath ih =>
      have hlt := h.weight_lt hlink
      have hle := h.weight_le hpath
      have hpos : fuel ≠ 0 := by omega
      obtain ⟨fuel, rfl⟩ := Nat.exists_eq_succ_of_ne_zero hpos
      have hparent : f.parent (some i) = some q := hlink
      by_cases heq : i = root
      · simp [climb, heq]
      · have hfuel' : f.weight root < f.weight q + fuel := by omega
        have hrest := ih hfuel'
        simpa [climb, heq, hparent] using hrest

theorem WellFormed.isAttached_iff_within (h : f.WellFormed) :
    f.isAttached (some i) (some root) = true ↔ f.Within i root := by
  refine ⟨within_of_isAttached, fun hi => h.climb_of_within hi ?_⟩
  have hweight := f.weight_le_size root
  omega

/-!
## Stretches of a walk
-/

theorem infix_flatMap {α β : Type} {a : α} {as : List α} (ha : a ∈ as) (g : α → List β) :
    g a <:+: as.flatMap g := by
  obtain ⟨before, after, rfl⟩ := List.append_of_mem ha
  rw [List.flatMap_append, List.flatMap_cons, ← List.append_assoc]
  exact List.infix_append _ _ _

/-- The subtree of a node is walked in one stretch. -/
theorem WellFormed.preorder_infix (h : f.WellFormed) (hp : f.Within p root) :
    f.preorder (some p) <:+: f.preorder (some root) := by
  induction hp with
  | refl => exact List.infix_rfl
  | @tail q r _ hlink ih =>
      rw [h.preorder_children (h.lt_size_of_link hlink)]
      have hchild := infix_flatMap (h.linked.mp hlink) fun c => f.preorder (some c)
      exact (ih.trans hchild).trans (List.suffix_cons _ _).isInfix

/-- The children of a node follow it in the order of its slots. -/
theorem WellFormed.children_sublist_preorder (h : f.WellFormed) (hp : p < f.size) :
    (p :: f.children (some p)).Sublist (f.preorder (some p)) := by
  rw [h.preorder_children hp]
  refine .cons_cons p ?_
  have hfirst : ∀ c ∈ f.children (some p), [c].Sublist (f.preorder (some c)) := by
    intro c hc
    rw [h.preorder_children (h.filled hc), List.singleton_sublist]
    exact List.mem_cons_self
  revert hfirst
  generalize f.children (some p) = children
  intro hfirst
  induction children with
  | nil => exact List.nil_sublist _
  | cons c children ih =>
      have hrest := ih fun d hd => hfirst d (List.mem_cons_of_mem c hd)
      exact (hfirst c List.mem_cons_self).append hrest

/-- A walk depends on the children of the nodes that it meets only. -/
theorem WellFormed.preorder_congr {g : Forest} (hf : f.WellFormed) (hg : g.WellFormed)
    (hsize : f.size ≤ g.size) (hi : i < f.size)
    (h : ∀ j, f.Within j i → g.children (some j) = f.children (some j)) :
    g.preorder (some i) = f.preorder (some i) := by
  induction hw : f.weight i using Nat.strong_induction_on generalizing i with
  | h w ih =>
      rw [hf.preorder_children hi, hg.preorder_children (Nat.lt_of_lt_of_le hi hsize), h i .refl]
      refine congrArg (i :: ·) (List.flatMap_congr fun c hc => ?_)
      have hlink := hf.linked.mpr hc
      exact ih _ (hw ▸ hf.weight_lt hlink) (hf.filled hc) (fun j hj => h j (hj.tail hlink)) rfl

/-!
## Attached nodes
-/

/-- Climbing from a node meets the root iff the walk from the root meets the node. The walk meets
every node once, and before its children, which it meets in the order of the slots. -/
theorem WellFormed.isAttached_iff_mem_preorder (h : f.WellFormed) (hroot : root < f.size) :
    (∀ s : Slot, f.isAttached s (some root) = true ↔ ∃ i, s = some i ∧
      i ∈ f.preorder (some root)) ∧
    (f.preorder (some root)).Nodup ∧
    ∀ p ∈ f.preorder (some root),
      (p :: f.children (some p)).Sublist (f.preorder (some root)) := by
  refine ⟨fun s => ?_, h.nodup_preorder hroot, fun p hp => ?_⟩
  · cases s with
    | none => simp [isAttached, climb]
    | some i => simp [h.isAttached_iff_within, h.mem_preorder hroot]
  · have hwithin := (h.mem_preorder hroot).mp hp
    have hsublist := h.children_sublist_preorder (lt_size_of_within hwithin hroot)
    exact hsublist.trans (h.preorder_infix hwithin).sublist

/-- In the block of two statements the name `a` is attached, and the name outside is not. -/
theorem isAttached_iff_mem_preorder_block :
    twoStatements.WellFormed ∧ 3 < twoStatements.size ∧
      twoStatements.isAttached (some 0) (some 3) = true ∧
      twoStatements.isAttached (some 4) (some 3) = false ∧
      (∀ s : Slot, twoStatements.isAttached s (some 3) = true ↔ ∃ i, s = some i ∧
        i ∈ twoStatements.preorder (some 3)) ∧
      (twoStatements.preorder (some 3)).Nodup ∧
      ∀ p ∈ twoStatements.preorder (some 3),
        (p :: twoStatements.children (some p)).Sublist (twoStatements.preorder (some 3)) :=
  have hroot : 3 < twoStatements.size := by decide
  ⟨wellFormed_twoStatements, hroot, by decide, by decide,
    wellFormed_twoStatements.isAttached_iff_mem_preorder hroot⟩

end Forest
end Untangle
