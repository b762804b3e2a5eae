import Untangle.Proofs.Tree.Growth
import Untangle.Proofs.Tree.Slots
import Untangle.Proofs.Tree.Subtree

/-!
# Copies

A tree mirrors another when every node of it has a source with the same payload, whose children
are the sources of the children. Walks over both trees then go side by side.

Copying a subtree only adds cells. The copy of a child is finished, and free, before the copy of
its parent adopts it, and what is copied is always a node of the forest the copy started from,
whose weight bounds the depth of the copy. The copy mirrors the original.
-/

namespace Untangle
namespace Forest

open Relation

variable {f g : Forest} {source source' : NodeId → NodeId} {root i k c : NodeId}

/-- Below `root`, the nodes of `g` repeat their sources in `f`. -/
def Mirrors (f g : Forest) (source : NodeId → NodeId) (root : NodeId) : Prop :=
  ∀ ⦃k⦄, g.Within k root → ∃ m, g.node? (some k) = some m ∧
    f.node? (some (source k)) = some (m.map (Option.map source))

/-- Below `root`, the nodes of `g` have the spans of their sources in `f`. -/
def MirrorsSpans (f g : Forest) (source : NodeId → NodeId) (root : NodeId) : Prop :=
  ∀ ⦃k⦄, g.Within k root → g.span? (some k) = f.span? (some (source k))

theorem MirrorsSpans.congr (h : MirrorsSpans f g source root)
    (hsame : ∀ k, g.Within k root → source' k = source k) : MirrorsSpans f g source' root := by
  intro k hk
  rw [hsame k hk]
  exact h hk

namespace Mirrors

theorem congr (h : Mirrors f g source root) (hg : g.WellFormed)
    (hsame : ∀ k, g.Within k root → source' k = source k) : Mirrors f g source' root := by
  intro k hk
  rcases h hk with ⟨m, hm, hsource⟩
  refine ⟨m, hm, ?_⟩
  have hslots : m.map (Option.map source') = m.map (Option.map source) := by
    apply Node.map_congr
    intro s hs
    cases s with
    | none => rfl
    | some c =>
        have hlink : g.Link c k := hg.linked.mpr (by
          rw [children_of_node? hm]
          exact mem_childrenOf.mpr hs)
        exact congrArg some (hsame c (.head hlink hk))
  rw [hsame k hk, hsource, hslots]

theorem child (h : Mirrors f g source root) (hlink : g.Link c root) : Mirrors f g source c :=
  fun _ hk => h (hk.trans (.single hlink))

theorem link (h : Mirrors f g source root) (hf : f.WellFormed) (hg : g.WellFormed)
    (hi : g.Within i root) (hlink : g.Link c i) : f.Link (source c) (source i) := by
  rcases h hi with ⟨m, hm, hsource⟩
  have hmem : some c ∈ m.slots := by
    have hc := hg.linked.mp hlink
    rw [children_of_node? hm] at hc
    exact mem_childrenOf.mp hc
  apply hf.linked.mpr
  rw [children_of_node? hsource, mem_childrenOf, Node.slots_map]
  exact List.mem_map_of_mem hmem

theorem within (h : Mirrors f g source root) (hf : f.WellFormed) (hg : g.WellFormed)
    (hk : g.Within k root) : f.Within (source k) (source root) := by
  induction hk using ReflTransGen.head_induction_on with
  | refl => exact .refl
  | head hlink hpath ih => exact .head (h.link hf hg hpath hlink) ih

/-- Walks over both trees meet corresponding nodes. -/
theorem map_preorder (h : Mirrors f g source root) (hf : f.WellFormed) (hg : g.WellFormed) :
    (g.preorder (some root)).map source = f.preorder (some (source root)) := by
  induction hw : g.weight root using Nat.strong_induction_on generalizing root with
  | h w ih =>
      subst hw
      rcases h .refl with ⟨m, hm, hsource⟩
      rw [hg.preorder_eq hm, hf.preorder_eq hsource, Node.slots_map, List.map_cons,
        List.map_flatMap, List.flatMap_map]
      congr 1
      apply List.flatMap_congr
      intro s hs
      cases s with
      | none => rw [Option.map_none, preorder_none, preorder_none, List.map_nil]
      | some c =>
          have hlink : g.Link c root := hg.linked.mpr (by
            rw [children_of_node? hm]
            exact mem_childrenOf.mpr hs)
          exact ih _ (hg.weight_lt hlink) (h.child hlink) rfl

/-- No two nodes have the same source. -/
theorem injective (h : Mirrors f g source root) (hf : f.WellFormed) (hg : g.WellFormed)
    (hk : g.Within k root) (hi : g.Within i root) (hsame : source k = source i) : k = i := by
  rcases h .refl with ⟨m, hm, hsource⟩
  have hroot := lt_size_of_node? hm
  have hnodup := hf.nodup_preorder (lt_size_of_node? hsource)
  rw [← h.map_preorder hf hg] at hnodup
  exact List.inj_on_of_nodup_map hnodup ((hg.mem_preorder hroot).mpr hk)
    ((hg.mem_preorder hroot).mpr hi) hsame

end Mirrors
end Forest
end Untangle

namespace Untangle
namespace Forest

open Relation

/-!
## Growing forests
-/

/-- All cells of `f` are cells of `g`. -/
structure Extends (f g : Forest) : Prop where
  size_le : f.size ≤ g.size
  cell : ∀ {i}, i < f.size → g.cell? (some i) = f.cell? (some i)

section Extends

variable {f g h : Forest} {i : NodeId}

theorem Extends.refl (f : Forest) : Extends f f :=
  ⟨Nat.le_refl _, fun _ => rfl⟩

theorem Extends.trans (hfg : Extends f g) (hgh : Extends g h) : Extends f h :=
  ⟨hfg.size_le.trans hgh.size_le,
    fun hi => (hgh.cell (Nat.lt_of_lt_of_le hi hfg.size_le)).trans (hfg.cell hi)⟩

theorem Extends.free (hfg : Extends f g) (hi : f.Free i) : g.Free i := by
  refine ⟨Nat.lt_of_lt_of_le hi.1 hfg.size_le, ?_⟩
  rw [parent_eq, hfg.cell hi.1]
  exact hi.2

/-- A new node with new children leaves the old cells alone. -/
theorem Extends.add {n : Node Slot} (hfg : Extends f g)
    (hnew : ∀ c ∈ childrenOf n, f.size ≤ c) (start stop : Nat) :
    Extends f (g.add n start stop).2 := by
  constructor
  · rw [size_add]
    exact Nat.le_succ_of_le hfg.size_le
  · intro i hi
    have hne : i ≠ g.size := Nat.ne_of_lt (Nat.lt_of_lt_of_le hi hfg.size_le)
    have hmem : i ∉ childrenOf n := fun h => Nat.not_lt.mpr (hnew i h) hi
    rw [cell?_add, if_neg hne, hfg.cell hi]
    cases f.cell? (some i) with
    | none => rfl
    | some c => simp [hmem]

theorem Extends.node? (hfg : Extends f g) (hi : i < f.size) :
    g.node? (some i) = f.node? (some i) := by
  rw [node?_eq, hfg.cell hi, node?_eq]

theorem Extends.span? (hfg : Extends f g) (hi : i < f.size) :
    g.span? (some i) = f.span? (some i) := by
  rw [Forest.span?, hfg.cell hi, Forest.span?]

theorem Extends.parent (hfg : Extends f g) (hi : i < f.size) :
    g.parent (some i) = f.parent (some i) := by
  rw [parent_eq, hfg.cell hi, parent_eq]

theorem Extends.link (hfg : Extends f g) {c p : NodeId} (hlink : f.Link c p) : g.Link c p :=
  (hfg.parent (lt_size_of_parent hlink)).trans hlink

theorem Extends.within_mono (hfg : Extends f g) {k : NodeId} (hk : f.Within k i) : g.Within k i :=
  ReflTransGen.mono (fun _ _ => hfg.link) _ _ hk

/-- Nothing new is below an old node. -/
theorem Extends.within (hfg : Extends f g) (hf : f.WellFormed) (hg : g.WellFormed)
    (hi : i < f.size) {k : NodeId} (h : g.Within k i) : k < f.size ∧ f.Within k i := by
  induction h using ReflTransGen.head_induction_on with
  | refl => exact ⟨hi, .refl⟩
  | @head a b hlink _ ih =>
      have hmem := hg.linked.mp hlink
      rw [children_eq, hfg.cell ih.1, ← children_eq] at hmem
      exact ⟨hf.filled hmem, .head (hf.linked.mpr hmem) ih.2⟩

end Extends

/-!
## Copying
-/

/-- What is done at one slot of a copied node. -/
def copySlot (fuel : Nat) (s : Slot) : StateM Forest Slot :=
  if s.isSome then copyWith fuel s else pure none

/-- From `g`, a copy of the node `s` of `f` has been made in `g'`: the node `i` is new and free. -/
structure Copied (f g g' : Forest) (s i : NodeId) : Prop where
  extends_ : Extends g g'
  wellFormed : g'.WellFormed
  new : ∀ k, g'.Within k i → g.size ≤ k
  free : g'.Free i
  mirrors : ∃ source, Mirrors f g' source i ∧ MirrorsSpans f g' source i ∧ source i = s

/-- From `g`, copies of nodes of `f` have been made in `g'` for each filled slot. -/
structure CopiedAll (f g g' : Forest) (slots copies : List Slot) : Prop where
  extends_ : Extends g g'
  wellFormed : g'.WellFormed
  filled : List.Forall₂ (fun s t => s.isSome = t.isSome) slots copies
  new : ∀ i, some i ∈ copies → ∀ k, g'.Within k i → g.size ≤ k
  free : ∀ i, some i ∈ copies → g'.Free i
  nodup : (copies.filterMap id).Nodup
  mirrors : ∃ source : NodeId → NodeId, copies.map (Option.map source) = slots ∧
    ∀ i, some i ∈ copies → Mirrors f g' source i ∧ MirrorsSpans f g' source i

variable {f g : Forest} {i : NodeId}

theorem CopiedAll.cons_none {g' : Forest} {slots copies : List Slot}
    (h : CopiedAll f g g' slots copies) :
    CopiedAll f g g' (none :: slots) (none :: copies) := by
  rcases h.mirrors with ⟨source, hslots, hmirrors⟩
  refine ⟨h.extends_, h.wellFormed, .cons rfl h.filled, by simpa using h.new,
    by simpa using h.free, by simpa using h.nodup, source, ?_, by simpa using hmirrors⟩
  rw [List.map_cons, hslots, Option.map_none]

/-- What is below the first copy is older than what is below the others. -/
theorem CopiedAll.cons_some {g₁ g₂ : Forest} {slots copies : List Slot} {s : NodeId}
    (hhead : Copied f g g₁ s i) (htail : CopiedAll f g₁ g₂ slots copies) :
    CopiedAll f g g₂ (some s :: slots) (some i :: copies) := by
  have hold : ∀ k, g₂.Within k i → k < g₁.size ∧ g₁.Within k i := fun k hk =>
    htail.extends_.within hhead.wellFormed htail.wellFormed hhead.free.1 hk
  refine ⟨hhead.extends_.trans htail.extends_, htail.wellFormed, .cons rfl htail.filled,
    ?_, ?_, ?_, ?_⟩
  · intro j hj k hk
    rcases List.mem_cons.mp hj with heq | hmem
    · obtain rfl := Option.some.inj heq
      exact hhead.new k (hold k hk).2
    · exact hhead.extends_.size_le.trans (htail.new j hmem k hk)
  · intro j hj
    rcases List.mem_cons.mp hj with heq | hmem
    · exact Option.some.inj heq ▸ htail.extends_.free hhead.free
    · exact htail.free j hmem
  · have hnot : i ∉ copies.filterMap id := by
      intro hmem
      exact Nat.not_lt.mpr (htail.new i (by simpa using hmem) i .refl) hhead.free.1
    simpa using ⟨by simpa using hnot, by simpa using htail.nodup⟩
  · rcases hhead.mirrors with ⟨first, hfirst, hspans, hroot⟩
    rcases htail.mirrors with ⟨others, hslots, hothers⟩
    let source := fun k => if k < g₁.size then first k else others k
    have hyoung : ∀ j, some j ∈ copies → ∀ k, g₂.Within k j → source k = others k :=
      fun j hj k hk => if_neg (Nat.not_lt.mpr (htail.new j hj k hk))
    refine ⟨source, ?_, ?_⟩
    · rw [List.map_cons, Option.map_some]
      refine congrArg₂ _ (congrArg some ((if_pos hhead.free.1).trans hroot)) ?_
      rw [← hslots]
      apply List.map_congr_left
      intro t ht
      cases t with
      | none => rfl
      | some j => exact congrArg some (hyoung j ht j .refl)
    · intro j hj
      rcases List.mem_cons.mp hj with heq | hmem
      · obtain rfl := Option.some.inj heq
        have hlater : Mirrors f g₂ first j := by
          intro k hk
          rcases hfirst (hold k hk).2 with ⟨m, hm, hsource⟩
          exact ⟨m, (htail.extends_.node? (hold k hk).1).trans hm, hsource⟩
        have hlater' : MirrorsSpans f g₂ first j := fun k hk =>
          (htail.extends_.span? (hold k hk).1).trans (hspans (hold k hk).2)
        have hsame : ∀ k, g₂.Within k j → source k = first k := fun k hk => if_pos (hold k hk).1
        exact ⟨hlater.congr htail.wellFormed hsame, hlater'.congr hsame⟩
      · rcases hothers j hmem with ⟨hmirrors, hspans'⟩
        exact ⟨hmirrors.congr htail.wellFormed (hyoung j hmem), hspans'.congr (hyoung j hmem)⟩

theorem copiedAll_mapM {fuel : Nat} {slots : List Slot}
    (hcopy : ∀ c, some c ∈ slots → ∀ g, Extends f g → g.WellFormed →
      ∃ i g', (copyWith fuel (some c)).run g = (some i, g') ∧ Copied f g g' c i)
    (hg : Extends f g) (hwf : g.WellFormed) :
    ∃ copies g', (slots.mapM (copySlot fuel)).run g = (copies, g') ∧
      CopiedAll f g g' slots copies := by
  induction slots generalizing g with
  | nil =>
      exact ⟨[], g, rfl, .refl g, hwf, .nil, by simp, by simp, by simp, id, rfl, by simp⟩
  | cons s slots ih =>
      have hrest := fun c hc => hcopy c (List.mem_cons_of_mem s hc)
      cases s with
      | none =>
          rcases ih hrest hg hwf with ⟨copies, g', hrun, hall⟩
          refine ⟨none :: copies, g', ?_, hall.cons_none⟩
          have hslot : (copySlot fuel none).run g = (none, g) := rfl
          rw [Node.run_mapM_cons, hslot, hrun]
      | some c =>
          rcases hcopy c (List.mem_cons_self ..) g hg hwf with ⟨i, g₁, hhead, hcopied⟩
          obtain ⟨copies, g₂, hrun, hall⟩ :=
            ih hrest (hg.trans hcopied.extends_) hcopied.wellFormed
          refine ⟨some i :: copies, g₂, ?_, .cons_some hcopied hall⟩
          have hslot : (copySlot fuel (some c)).run g = (some i, g₁) := hhead
          rw [Node.run_mapM_cons, hslot, hrun]

theorem run_copyWith_succ {cell : Cell} (hcell : g.cell? (some i) = some cell) (fuel : Nat) :
    (copyWith (fuel + 1) (some i)).run g =
      (some ((cell.node.mapM (copySlot fuel)).run g).2.size,
        (((cell.node.mapM (copySlot fuel)).run g).2.add
          ((cell.node.mapM (copySlot fuel)).run g).1 cell.start cell.stop).2) := by
  simp only [copyWith, StateT.run_bind, StateT.run_get, pure_bind, hcell]
  rfl

/-- What has no node to copy is left alone. -/
theorem run_copyWith_of_none {s : Slot} (h : g.cell? s = none) (fuel : Nat) :
    (copyWith fuel s).run g = (none, g) := by
  cases fuel with
  | zero => rfl
  | succ fuel =>
      simp only [copyWith, StateT.run_bind, StateT.run_get, pure_bind, h]
      rfl

/-- A node with the payload of the original adopts the copies of its children. -/
theorem CopiedAll.adopted {g' : Forest} {n node : Node Slot} {start stop : Nat}
    (hall : CopiedAll f g g' n.slots node.slots) (hn : f.node? (some i) = some n)
    (hspan : f.span? (some i) = some (start, stop)) (hblank : node.blank = n.blank)
    (hadopt : g'.Adoptable node) :
    Copied f g (g'.add node start stop).2 i g'.size := by
  have hnew : ∀ c ∈ childrenOf node, g.size ≤ c := fun c hc =>
    hall.new c (mem_childrenOf.mp hc) c .refl
  have hbelow : ∀ k, (g'.add node start stop).2.Within k g'.size →
      k = g'.size ∨ k ≠ g'.size ∧ ∃ c, some c ∈ node.slots ∧ g'.Within k c := by
    intro k hk
    rcases within_add_self hall.wellFormed hadopt hk with rfl | ⟨c, hc, hkc⟩
    · exact .inl rfl
    · have hlt := lt_size_of_within hkc (hall.free c (mem_childrenOf.mp hc)).1
      exact .inr ⟨Nat.ne_of_lt hlt, c, mem_childrenOf.mp hc, hkc⟩
  refine ⟨hall.extends_.add hnew _ _, wellFormed_add hall.wellFormed hadopt, ?_,
    free_add_self hadopt, ?_⟩
  · intro k hk
    rcases hbelow k hk with rfl | ⟨_, c, hc, hkc⟩
    · exact hall.extends_.size_le
    · exact hall.new c hc k hkc
  · rcases hall.mirrors with ⟨source, hslots, hmirrors⟩
    let source' := fun k => if k = g'.size then i else source k
    have hsame : ∀ s ∈ node.slots, s.map source' = s.map source := by
      intro s hs
      cases s with
      | none => rfl
      | some c =>
          have hne := Nat.ne_of_lt (hall.free c hs).1
          exact congrArg some (if_neg hne)
    have hrenamed : node.map (Option.map source') = n := by
      apply Node.eq_of_blank_of_slots
      · rw [Node.blank_map, hblank]
      · rw [Node.slots_map, List.map_congr_left hsame, hslots]
    have hbelow' : ∀ c, some c ∈ node.slots → ∀ k, g'.Within k c → source' k = source k :=
      fun c hc k hk => if_neg (Nat.ne_of_lt (lt_size_of_within hk (hall.free c hc).1))
    have hmirrors' : Mirrors f (g'.add node start stop).2 source' g'.size := by
      intro k hk
      rcases hbelow k hk with rfl | ⟨hne, c, hc, hkc⟩
      · refine ⟨node, node?_add_self, ?_⟩
        rw [hrenamed]
        exact (congrArg (fun j => f.node? (some j)) (if_pos rfl)).trans hn
      · rcases (hmirrors c hc).1.congr hall.wellFormed (hbelow' c hc) hkc with ⟨m, hm, hsource⟩
        exact ⟨m, (node?_add_of_ne hne).trans hm, hsource⟩
    have hspans' : MirrorsSpans f (g'.add node start stop).2 source' g'.size := by
      intro k hk
      rcases hbelow k hk with rfl | ⟨hne, c, hc, hkc⟩
      · rw [span?_add_self, ← hspan]
        exact congrArg (fun j => f.span? (some j)) (if_pos rfl).symm
      · rw [span?_add_of_ne hne]
        exact (hmirrors c hc).2.congr (hbelow' c hc) hkc
    exact ⟨source', hmirrors', hspans', if_pos rfl⟩

theorem copied_of_weight (hf : f.WellFormed) {fuel : Nat} (hi : i < f.size)
    (hfuel : f.weight i ≤ fuel) (hg : Extends f g) (hwf : g.WellFormed) :
    ∃ j g', (copyWith fuel (some i)).run g = (some j, g') ∧ Copied f g g' i j := by
  induction fuel generalizing i g with
  | zero => exact absurd hfuel (Nat.not_le.mpr (weight_pos hi))
  | succ fuel ih =>
      have hcell := cell?_of_lt hi
      generalize f.cells[i] = cell at hcell
      have hslots : ∀ c, some c ∈ cell.node.slots → ∀ g, Extends f g → g.WellFormed →
          ∃ j g', (copyWith fuel (some c)).run g = (some j, g') ∧ Copied f g g' c j := by
        intro c hc g hg hwf
        have hmem : c ∈ f.children (some i) := by
          rw [children_of_cell? hcell]
          exact mem_childrenOf.mpr hc
        have hweight := hf.weight_lt (hf.linked.mpr hmem)
        exact ih (hf.filled hmem) (Nat.le_of_lt_succ (Nat.lt_of_lt_of_le hweight hfuel)) hg hwf
      rcases copiedAll_mapM hslots hg hwf with ⟨copies, g', hrun, hall⟩
      have hblank := Node.blank_run_mapM (copySlot fuel) cell.node g
      rw [Node.run_mapM_slots, Prod.mk.injEq] at hrun
      rw [run_copyWith_succ ((hg.cell hi).trans hcell), hrun.2]
      generalize ((cell.node.mapM (copySlot fuel)).run g).1 = node at hblank hrun ⊢
      rcases hrun with ⟨rfl, _⟩
      -- The copied node has the payload of the original, so its list has no empty entry either.
      have hadopt : g'.Adoptable node := by
        refine ⟨fun c hc => hall.free c (mem_childrenOf.mp hc), hall.nodup, ?_⟩
        intro entries hentries hnone
        obtain ⟨old, s, hold, hs, hsome⟩ :=
          Node.exists_mem_entries hblank hall.filled hentries hnone
        have hfull := hf.full (by rw [node?_eq, hcell]; rfl) old hold
        cases s with
        | none => exact hfull hs
        | some c => simp at hsome
      have hnode : f.node? (some i) = some cell.node := by rw [node?_eq, hcell]; rfl
      have hspan : f.span? (some i) = some (cell.start, cell.stop) := by
        rw [Forest.span?, hcell]
        rfl
      exact ⟨_, _, rfl, hall.adopted hnode hspan hblank hadopt⟩

/-- Copying a node of a well-formed forest answers a new free node and changes no old cell. -/
theorem copied_copy (hf : f.WellFormed) (hi : i < f.size) :
    ∃ j g, f.copy (some i) = (some j, g) ∧ Copied f f g i j :=
  copied_of_weight hf hi (f.weight_le_size i) (.refl f) hf

theorem wellFormed_copy (hf : f.WellFormed) (s : Slot) : (f.copy s).2.WellFormed := by
  cases hcell : f.cell? s with
  | none =>
      have hcopy : f.copy s = (none, f) := run_copyWith_of_none hcell f.size
      rwa [hcopy]
  | some cell =>
      cases s with
      | none => simp [cell?] at hcell
      | some i =>
          rcases copied_copy hf (lt_size_of_cell? hcell) with ⟨j, g, hcopy, hcopied⟩
          rw [hcopy]
          exact hcopied.wellFormed

/-- A copy is new, free and away from the old nodes, and the walks over the copy and over the
original pair every node with its source: the same payload with the sources of the children in its
slots, the same span, and the source of its parent for a parent. -/
theorem WellFormed.copy_isomorphic (hf : f.WellFormed) (hi : i < f.size) :
    ∃ j g source, f.copy (some i) = (some j, g) ∧ Extends f g ∧ g.Free j ∧
      (∀ k ∈ g.preorder (some j), f.size ≤ k) ∧
      (g.preorder (some j)).length = (f.preorder (some i)).length ∧
      (g.preorder (some j)).map source = f.preorder (some i) ∧
      ∀ k ∈ g.preorder (some j),
        (∃ n, g.node? (some k) = some n ∧
          f.node? (some (source k)) = some (n.map (Option.map source))) ∧
        g.span? (some k) = f.span? (some (source k)) ∧
        (k ≠ j → ∃ p ∈ g.preorder (some j), g.parent (some k) = some p ∧
          f.parent (some (source k)) = some (source p)) := by
  rcases copied_copy hf hi with ⟨j, g, hcopy, hcopied⟩
  rcases hcopied.mirrors with ⟨source, hmirrors, hspans, hroot⟩
  have hwithin : ∀ {k}, k ∈ g.preorder (some j) ↔ g.Within k j :=
    hcopied.wellFormed.mem_preorder hcopied.free.1
  have hwalk : (g.preorder (some j)).map source = f.preorder (some i) := by
    rw [hmirrors.map_preorder hf hcopied.wellFormed, hroot]
  refine ⟨j, g, source, hcopy, hcopied.extends_, hcopied.free,
    fun k hk => hcopied.new k (hwithin.mp hk), ?_, hwalk, fun k hk => ?_⟩
  · rw [← hwalk, List.length_map]
  · refine ⟨hmirrors (hwithin.mp hk), hspans (hwithin.mp hk), fun hne => ?_⟩
    rcases (hwithin.mp hk).cases_head with heq | ⟨p, hlink, hp⟩
    · exact absurd heq hne
    · exact ⟨p, hwithin.mpr hp, hlink, hmirrors.link hf hcopied.wellFormed hp hlink⟩

/-- The copy of the block of two statements. -/
theorem copy_isomorphic_block :
    twoStatements.WellFormed ∧ 3 < twoStatements.size ∧
      ∃ j g source, twoStatements.copy (some 3) = (some j, g) ∧ Extends twoStatements g ∧
        g.Free j ∧ (∀ k ∈ g.preorder (some j), twoStatements.size ≤ k) ∧
        (g.preorder (some j)).length = (twoStatements.preorder (some 3)).length ∧
        (g.preorder (some j)).map source = twoStatements.preorder (some 3) ∧
        ∀ k ∈ g.preorder (some j),
          (∃ n, g.node? (some k) = some n ∧
            twoStatements.node? (some (source k)) = some (n.map (Option.map source))) ∧
          g.span? (some k) = twoStatements.span? (some (source k)) ∧
          (k ≠ j → ∃ p ∈ g.preorder (some j), g.parent (some k) = some p ∧
            twoStatements.parent (some (source k)) = some (source p)) :=
  have hroot : 3 < twoStatements.size := by decide
  ⟨wellFormed_twoStatements, hroot, wellFormed_twoStatements.copy_isomorphic hroot⟩

end Forest
end Untangle
