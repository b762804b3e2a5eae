import Mathlib.Data.List.Basic
import Untangle.Tree.Forest

/-!
# Forests without positions

Where its nodes stand in the source says nothing about the trees of a forest. What remains without
the positions grows with the forest.
-/

namespace Untangle

/-- The same cell at no place of the source. -/
def Cell.withoutSpan (c : Cell) : Cell :=
  { c with start := 0, stop := 0 }

namespace Forest

variable {f g : Forest}

/-- The same trees, whose nodes stand at no place of the source. -/
def withoutSpans (f : Forest) : Forest :=
  ⟨f.cells.map Cell.withoutSpan⟩

theorem size_withoutSpans (f : Forest) : f.withoutSpans.size = f.size := by
  simp [size, withoutSpans]

theorem cell?_withoutSpans (f : Forest) (s : Slot) :
    f.withoutSpans.cell? s = (f.cell? s).map Cell.withoutSpan := by
  cases s with
  | none => rfl
  | some i => simp [cell?, withoutSpans]

theorem node?_withoutSpans (f : Forest) (s : Slot) : f.withoutSpans.node? s = f.node? s := by
  rw [node?, cell?_withoutSpans, Option.map_map]
  rfl

/-!
## Growth
-/

theorem map_modify {α : Type} {m e : α → α} (h : ∀ c, e (m c) = m (e c)) (cells : Array α)
    (i : Nat) : (cells.modify i m).map e = (cells.map e).modify i m := by
  apply Array.ext_getElem?
  intro j
  rw [Array.getElem?_map, Array.getElem?_modify, Array.getElem?_modify, Array.getElem?_map]
  split
  · rw [Option.map_map, Option.map_map]
    exact congrArg (Option.map · cells[j]?) (funext h)
  · rfl

theorem withoutSpans_setNode (f : Forest) (i : NodeId) (n : Node Slot) :
    (f.setNode i n).withoutSpans = f.withoutSpans.setNode i n := by
  have hcell : ∀ c : Cell, Cell.withoutSpan { c with node := n } =
      { c.withoutSpan with node := n } := fun _ => rfl
  exact congrArg Forest.mk (map_modify hcell f.cells i)

theorem withoutSpans_setParent (f : Forest) (s parent : Slot) :
    (f.setParent s parent).withoutSpans = f.withoutSpans.setParent s parent := by
  cases s with
  | none => rfl
  | some i =>
      have hcell : ∀ c : Cell, Cell.withoutSpan { c with parent := parent } =
          { c.withoutSpan with parent := parent } := fun _ => rfl
      exact congrArg Forest.mk (map_modify hcell f.cells i)

theorem withoutSpans_foldl_setParent (children : List NodeId) (f : Forest) (parent : Slot) :
    (children.foldl (fun g child => g.setParent (some child) parent) f).withoutSpans =
      children.foldl (fun g child => g.setParent (some child) parent) f.withoutSpans := by
  induction children generalizing f with
  | nil => rfl
  | cons child children ih =>
      rw [List.foldl_cons, List.foldl_cons, ih, withoutSpans_setParent]

theorem withoutSpans_add (f : Forest) (n : Node Slot) (start stop : Nat) :
    (f.add n start stop).2.withoutSpans = (f.withoutSpans.add n 0 0).2 := by
  have hpush : (f.push { node := n, start := start, stop := stop, parent := none }).withoutSpans =
      f.withoutSpans.push { node := n, start := 0, stop := 0, parent := none } :=
    congrArg Forest.mk Array.map_push
  unfold add
  dsimp only
  rw [withoutSpans_foldl_setParent, hpush, size_withoutSpans]

/-!
## The same trees
-/

section Same

variable (h : f.withoutSpans = g.withoutSpans)
include h

theorem size_eq_of_withoutSpans : f.size = g.size := by
  rw [← f.size_withoutSpans, h, g.size_withoutSpans]

theorem node?_eq_of_withoutSpans (s : Slot) : f.node? s = g.node? s := by
  rw [← f.node?_withoutSpans, h, g.node?_withoutSpans]

theorem identifierText?_eq_of_withoutSpans (s : Slot) :
    f.identifierText? s = g.identifierText? s := by
  rw [identifierText?, identifierText?, node?_eq_of_withoutSpans h]

theorem satisfies_eq_of_withoutSpans (s : Slot) (p : Node Slot → Bool) :
    f.satisfies s p = g.satisfies s p := by
  rw [satisfies, satisfies, node?_eq_of_withoutSpans h]

theorem add_eq_of_withoutSpans (n : Node Slot) (start stop start' stop' : Nat) :
    (f.add n start stop).1 = (g.add n start' stop').1 ∧
      (f.add n start stop).2.withoutSpans = (g.add n start' stop').2.withoutSpans := by
  constructor
  · exact size_eq_of_withoutSpans h
  · rw [withoutSpans_add, withoutSpans_add, h]

theorem setNode_eq_of_withoutSpans (i : NodeId) (n : Node Slot) :
    (f.setNode i n).withoutSpans = (g.setNode i n).withoutSpans := by
  rw [withoutSpans_setNode, withoutSpans_setNode, h]

end Same

end Forest
end Untangle
