import Untangle.Proofs.Tree.Copy
import Untangle.Proofs.Tree.Edits

/-!
# Grafts

A new tree is put in the place of a child. What is below the new tree stays as it is, and
everything else keeps its place, apart from what was below the old child.
-/

namespace Untangle
namespace Forest

open Relation

/-- `h` is `g'` after the tree at `j` took the place of `old` in `X`, where `g'` is the forest `g`
with new trees. -/
structure Graft (g g' h : Forest) (old X j : NodeId) : Prop where
  grown : Extends g g'
  grownWellFormed : g'.WellFormed
  new : ∀ k, g'.Within k j → g.size ≤ k
  linked : g.Link old X
  wellFormed : h.WellFormed
  size : h.size = g'.size
  owner : ∃ n, g.node? (some X) = some n ∧
    h.node? (some X) = some (n.map (Option.map (Function.update id old j)))
  node : ∀ {i}, i ≠ X → h.node? (some i) = g'.node? (some i)
  link : ∀ {a b}, h.Link a b ↔ a = j ∧ b = X ∨ a ≠ old ∧ g'.Link a b

variable {g g' h : Forest} {old X j i k a b root : NodeId}

theorem graft_replace (hg : g.WellFormed) (hgrown : Extends g g') (hwf : g'.WellFormed)
    (hfree : g'.Free j) (hnew : ∀ k, g'.Within k j → g.size ≤ k) (hlink : g.Link old X) :
    ∃ h, g'.replace (some old) (some j) = (h, true) ∧ Graft g g' h old X j := by
  have hlink' : g'.Link old X := hgrown.link hlink
  have habove : ¬ g'.Within old j := fun hpath =>
    Nat.not_lt.mpr (hnew old hpath) (lt_size_of_parent hlink)
  rcases rewired_replace hwf hlink' hfree habove with ⟨h, owner, hreplace, hr, hx⟩
  have howner : g.node? (some X) = some owner :=
    (hgrown.node? (hg.lt_size_of_link hlink)).symm.trans hx.owner
  have hmem : some old ∈ owner.slots := by
    rw [← mem_childrenOf, ← children_of_node? howner]
    exact hg.linked.mp hlink
  have hnodup := hg.nodup X
  rw [children_of_node? howner] at hnodup
  refine ⟨h, hreplace, hgrown, hwf, hnew, hlink,
    hr.wellFormed hwf hx (exchanged_replaceFirst hmem _) rfl, hr.size,
    ⟨owner, howner, ?_⟩, hr.node?_of_ne, ?_⟩
  · rw [hr.node?_self (lt_size_of_node? hx.owner), Node.replaceFirst_eq_map hnodup]
  · intro a b
    by_cases ha : a < g'.size
    · rw [hr.link hx ha, List.mem_singleton]
    · constructor
      · intro hab
        exact absurd (hr.size ▸ lt_size_of_parent hab) ha
      · rintro (⟨rfl, _⟩ | ⟨_, hab⟩)
        · exact absurd hfree.1 ha
        · exact absurd (lt_size_of_parent hab) ha

namespace Graft

variable (hx : Graft g g' h old X j)

include hx

theorem old_lt : old < g.size :=
  lt_size_of_parent hx.linked

theorem statement (hX : g.node? (some X) = some (.operand .expressionStatement (some old))) :
    h.node? (some X) = some (.operand .expressionStatement (some j)) := by
  rcases hx.owner with ⟨n, hn, hn'⟩
  obtain rfl := Option.some.inj (hX.symm.trans hn)
  rw [hn']
  simp [Node.map, Node.mapM]

theorem node?_old (hi : i < g.size) (hne : i ≠ X) : h.node? (some i) = g.node? (some i) :=
  (hx.node hne).trans (hx.grown.node? hi)

theorem link_old (ha : a < g.size) : h.Link a b ↔ a ≠ old ∧ g.Link a b := by
  have hne : a ≠ j := by
    rintro rfl
    exact Nat.not_lt.mpr (hx.new a .refl) ha
  rw [hx.link, Link, Link, hx.grown.parent ha]
  exact or_iff_right fun h => hne h.1

/-- An old node has the children that it had, but for the new one. -/
theorem node?_map (hg : g.WellFormed) {n : Node Slot} (hn : g.node? (some i) = some n) :
    h.node? (some i) = some (n.map (Option.map (Function.update id old j))) := by
  by_cases hi : i = X
  · subst hi
    rcases hx.owner with ⟨m, hm, hm'⟩
    obtain rfl := Option.some.inj (hn.symm.trans hm)
    exact hm'
  · rw [hx.node?_old (lt_size_of_node? hn) hi, hn]
    refine congrArg some ((n.map_id).symm.trans (Node.map_congr fun s hs => ?_))
    cases s with
    | none => rfl
    | some k =>
        have hne : k ≠ old := by
          rintro rfl
          exact hi (Link.unique (hg.link_of_slot hn hs) hx.linked)
        simp [hne]

/-- Old nodes keep their parents, except that the old expression has none. -/
theorem parent_old (ha : a < g.size) (hne : a ≠ old) :
    h.parent (some a) = g.parent (some a) := by
  apply Option.ext
  intro b
  have hlink := hx.link_old (b := b) ha
  exact hlink.trans (and_iff_right hne)

/-- What is below the new tree was below it. -/
theorem within_new : h.Within k j ↔ g'.Within k j := by
  constructor
  · intro hk
    induction hk using ReflTransGen.head_induction_on with
    | refl => exact .refl
    | @head k q hlink _ ih =>
        rcases hx.link.mp hlink with ⟨rfl, _⟩ | ⟨_, hold⟩
        · exact .refl
        · exact .head hold ih
  · intro hk
    induction hk using ReflTransGen.head_induction_on with
    | refl => exact .refl
    | @head k q hlink hpath ih =>
        have hne : k ≠ old := by
          rintro rfl
          exact Nat.not_lt.mpr (hx.new k (.head hlink hpath)) hx.old_lt
        exact .head (hx.link.mpr (.inr ⟨hne, hlink⟩)) ih

/-- What was not below the old expression keeps its place. -/
theorem within_old (hi : g.Within i root) (hout : ¬ g.Within i old) : h.Within i root := by
  induction hi using ReflTransGen.head_induction_on with
  | refl => exact .refl
  | @head a q hlink _ ih =>
      have hne : a ≠ old := by
        rintro rfl
        exact hout .refl
      have hlink' := (hx.link_old (lt_size_of_parent hlink)).mpr ⟨hne, hlink⟩
      exact .head hlink' (ih fun hpath => hout (.head hlink hpath))

/-- Old nodes are found only where they were. -/
theorem within_of_old (hg : g.WellFormed) (hk : h.Within k i) (hlt : k < g.size) :
    g.Within k i := by
  induction hk using ReflTransGen.head_induction_on with
  | refl => exact .refl
  | @head k q hlink _ ih =>
      have hlink' := ((hx.link_old hlt).mp hlink).2
      exact .head hlink' (ih (hg.lt_size_of_link hlink'))

theorem statement_within (hg : g.WellFormed) (hX : g.Within X root) : h.Within X root :=
  hx.within_old hX (hg.not_within_of_link hx.linked)

/-- New nodes are found in the new tree only. -/
theorem within_of_new (hg : g.WellFormed) (hroot : root < g.size) (hk : h.Within k root)
    (hnew : g.size ≤ k) : g'.Within k j := by
  induction hk using ReflTransGen.head_induction_on with
  | refl => exact absurd hroot (Nat.not_lt.mpr hnew)
  | @head k q hlink _ ih =>
      rcases hx.link.mp hlink with ⟨rfl, _⟩ | ⟨_, hold⟩
      · exact .refl
      · by_cases hq : q < g.size
        · have hmem := hx.grownWellFormed.linked.mp hold
          rw [children_eq, hx.grown.cell hq, ← children_eq] at hmem
          exact absurd (hg.filled hmem) (Nat.not_lt.mpr hnew)
        · exact .head hold (ih (Nat.not_lt.mp hq))

/-- The old expression is no longer there. -/
theorem old_not_within (hne : old ≠ root) : ¬ h.Within old root := by
  intro hold
  rcases ReflTransGen.cases_head hold with heq | ⟨q, hlink, _⟩
  · exact hne heq
  · exact ((hx.link_old hx.old_lt).mp hlink).1 rfl

end Graft
end Forest
end Untangle
