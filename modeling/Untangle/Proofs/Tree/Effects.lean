import Untangle.Proofs.Tree.Edits
import Untangle.Proofs.Tree.Walks

/-!
# Effects of edits

An edit exchanges one stretch of the walk over a tree. Seen cell by cell, the node that is taken out
loses its parent, the nodes that are put in get theirs, the owner of the slot holds them instead,
and nothing else happens.
-/

namespace Untangle
namespace Forest

open Relation

variable {f g : Forest} {root p old i : NodeId} {new placed moved into : List NodeId}

/-!
## What an edit may change
-/

/-- The walk from the root goes through other nodes in one stretch. -/
def WalkReplaced (f g : Forest) (root : NodeId) (out into : List NodeId) : Prop :=
  ∃ before after, f.preorder (some root) = before ++ out ++ after ∧
    g.preorder (some root) = before ++ into ++ after

/-- From `f` to `g`, the child `old` of `p` makes way for the nodes `placed`. The walk goes through
`into` instead of the subtree of `old`. Apart from these nodes, only the nodes `moved` may get other
parents. -/
structure Edited (f g : Forest) (root p old : NodeId) (placed moved into : List NodeId) :
    Prop where
  walk : WalkReplaced f g root (f.preorder (some old)) into
  slot : ∃ owner changed slots, f.node? (some p) = some owner ∧ g.node? (some p) = some changed ∧
    Exchanged owner changed old slots ∧ slots.filterMap id = placed
  removed : g.parent (some old) = none
  adopted : ∀ k ∈ placed, g.parent (some k) = some p
  parent : ∀ k < f.size, k ≠ old → k ∉ placed → k ∉ moved →
    g.parent (some k) = f.parent (some k)
  node : ∀ k < f.size, k ≠ p → g.node? (some k) = f.node? (some k)
  span : ∀ k < f.size, g.span? (some k) = f.span? (some k)

/-!
## Walks over exchanged children
-/

theorem link_of_strictly_within (hold : f.Within old root) (hne : old ≠ root) :
    ∃ p, f.Link old p ∧ f.Within p root := by
  rcases hold.cases_head with heq | ⟨p, hlink, hpath⟩
  · exact absurd heq hne
  · exact ⟨p, hlink, hpath⟩

/-- Subtrees that the exchange is not in are walked as before. -/
theorem Exchange.preorder_of_not_within (h : Exchange f g p old new) (hf : f.WellFormed)
    (hi : i < f.size) (hout : ¬ f.Within p i) : g.preorder (some i) = f.preorder (some i) := by
  refine hf.preorder_congr (h.wellFormed hf) h.size.ge hi fun j hj => ?_
  rcases h with ⟨owner, changed, slots, hr, -⟩
  refine hr.children_of_ne ?_
  rintro rfl
  exact hout hj

/-- Around the old child there are the same children as around the new ones. -/
theorem Exchange.children (h : Exchange f g p old new) :
    ∃ before after, f.children (some p) = before ++ old :: after ∧
      g.children (some p) = before ++ new ++ after := by
  rcases h with ⟨owner, changed, slots, hr, hx, ⟨before, after, howner, hchanged⟩, rfl⟩
  refine ⟨before.filterMap id, after.filterMap id, ?_, ?_⟩
  · rw [children_of_node? hx.owner, childrenOf, howner]
    simp
  · rw [children_of_node? (hr.node?_self (lt_size_of_node? hx.owner)), childrenOf, hchanged]
    simp

theorem Exchange.linked (h : Exchange f g p old new) : f.Link old p := by
  rcases h with ⟨owner, changed, slots, hr, hx, -⟩
  exact hx.linked

theorem Exchange.free (h : Exchange f g p old new) (hi : i ∈ new) :
    f.Free i ∧ ¬ f.Within p i := by
  rcases h with ⟨owner, changed, slots, hr, hx, -⟩
  exact ⟨hx.free i hi, hx.above i hi⟩

theorem walkReplaced_flatMap {before after : List NodeId} {out : List NodeId}
    (hbefore : ∀ c ∈ before, g.preorder (some c) = f.preorder (some c))
    (hafter : ∀ c ∈ after, g.preorder (some c) = f.preorder (some c))
    (hroot : f.preorder (some root) =
      root :: (before.flatMap fun c => f.preorder (some c)) ++ out ++
        after.flatMap fun c => f.preorder (some c))
    (hroot' : g.preorder (some root) =
      root :: (before.flatMap fun c => g.preorder (some c)) ++ into ++
        after.flatMap fun c => g.preorder (some c)) :
    WalkReplaced f g root out into := by
  refine ⟨_, _, hroot, ?_⟩
  rw [hroot', List.flatMap_congr hbefore, List.flatMap_congr hafter]

/-- At the owner of the slot. -/
theorem Exchange.walkReplaced_owner (h : Exchange f g p old new) (hf : f.WellFormed) :
    WalkReplaced f g p (f.preorder (some old)) (new.flatMap fun c => f.preorder (some c)) := by
  have hp := hf.lt_size_of_link h.linked
  rcases h.children with ⟨before, after, hchildren, hchildren'⟩
  have hsibling : ∀ c ∈ f.children (some p), g.preorder (some c) = f.preorder (some c) :=
    fun c hc => h.preorder_of_not_within hf (hf.filled hc)
      (hf.not_within_of_link (hf.linked.mpr hc))
  have hnew : ∀ c ∈ new, g.preorder (some c) = f.preorder (some c) := fun c hc =>
    h.preorder_of_not_within hf (h.free hc).1.1 (h.free hc).2
  rw [hchildren] at hsibling
  have hbefore : ∀ c ∈ before, g.preorder (some c) = f.preorder (some c) := fun c hc =>
    hsibling c (List.mem_append_left _ hc)
  have hafter : ∀ c ∈ after, g.preorder (some c) = f.preorder (some c) := fun c hc =>
    hsibling c (List.mem_append_right _ (List.mem_cons_of_mem _ hc))
  refine walkReplaced_flatMap hbefore hafter ?_ ?_
  · rw [hf.preorder_children hp, hchildren]
    simp
  · rw [(h.wellFormed hf).preorder_children (h.size.symm ▸ hp), hchildren',
      List.flatMap_append, List.flatMap_append, List.flatMap_congr hnew]
    simp

/-- What is exchanged in a subtree is exchanged in every tree around it. -/
theorem Exchange.walkReplaced (h : Exchange f g p old new) (hf : f.WellFormed)
    (hp : f.Within p root) :
    WalkReplaced f g root (f.preorder (some old))
      (new.flatMap fun c => f.preorder (some c)) := by
  induction hp with
  | refl => exact h.walkReplaced_owner hf
  | @tail q r hq hlink ih =>
      rcases ih with ⟨before, after, hbefore, hafter⟩
      have hr := hf.lt_size_of_link hlink
      have hmem := hf.linked.mp hlink
      obtain ⟨left, right, hchildren⟩ := List.append_of_mem hmem
      have hnodup := hf.nodup r
      rw [hchildren] at hnodup
      -- No other child of `r` has the exchange in its subtree.
      have hother : ∀ c ∈ f.children (some r), c ≠ q →
          g.preorder (some c) = f.preorder (some c) := by
        intro c hc hne
        refine h.preorder_of_not_within hf (hf.filled hc) fun hwithin => hne ?_
        exact hf.siblings_disjoint (hf.linked.mpr hc) hlink hwithin hq
      have hne : r ≠ p := by
        rintro rfl
        exact hf.not_within_of_link hlink hq
      have hchildren' : g.children (some r) = f.children (some r) := by
        rcases h with ⟨owner, changed, slots, hrewired, -⟩
        exact hrewired.children_of_ne hne
      have hleft : ∀ c ∈ left, g.preorder (some c) = f.preorder (some c) := fun c hc =>
        hother c (by rw [hchildren]; simp [hc]) (by grind)
      have hright : ∀ c ∈ right, g.preorder (some c) = f.preorder (some c) := fun c hc =>
        hother c (by rw [hchildren]; simp [hc]) (by grind)
      refine ⟨r :: (left.flatMap fun c => f.preorder (some c)) ++ before,
        after ++ right.flatMap fun c => f.preorder (some c), ?_, ?_⟩
      · rw [hf.preorder_children hr, hchildren, List.flatMap_append, List.flatMap_cons, hbefore]
        simp
      · rw [(h.wellFormed hf).preorder_children (h.size.symm ▸ hr), hchildren', hchildren,
          List.flatMap_append, List.flatMap_cons, hafter, List.flatMap_congr hleft,
          List.flatMap_congr hright]
        simp

/-!
## One exchange
-/

theorem Exchange.edited (h : Exchange f g p old new) (hf : f.WellFormed)
    (hp : f.Within p root) :
    Edited f g root p old new [] (new.flatMap fun c => f.preorder (some c)) := by
  have hwalk := h.walkReplaced hf hp
  rcases h with ⟨owner, changed, slots, hr, hx, hslots, hnew⟩
  have hold := lt_size_of_parent hx.linked
  refine ⟨hwalk, ⟨owner, changed, slots, hx.owner,
    hr.node?_self (lt_size_of_node? hx.owner), hslots, hnew⟩, ?_, ?_, ?_, ?_, ?_⟩
  · rw [hr.parent hold, if_pos rfl]
  · intro k hk
    have hne : k ≠ old := by
      rintro rfl
      have hlink := hx.linked
      rw [Link, (hx.free k hk).2] at hlink
      cases hlink
    rw [hr.parent (hx.free k hk).1, if_neg hne, if_pos hk]
  · intro k hk hne hmem _
    rw [hr.parent hk, if_neg hne, if_neg hmem]
  · exact fun k _ hne => hr.node?_of_ne hne
  · intro k _
    rw [span?, hr.cell, Option.map_map]
    rfl

/-!
## A new statement
-/

section Added

variable {n : Node Slot}

theorem WellFormed.preorder_add (hf : f.WellFormed) (hn : f.Adoptable n) (hi : i < f.size) :
    (f.addNew n).2.preorder (some i) = f.preorder (some i) := by
  refine hf.preorder_congr (wellFormed_add hf hn) ?_ hi fun j hj => ?_
  · exact Nat.le_of_lt ((size_add f n 0 0).symm ▸ Nat.lt_succ_self _)
  · exact children_add_of_ne (Nat.ne_of_lt (lt_size_of_within hj hi))

theorem WellFormed.preorder_add_self (hf : f.WellFormed) (hn : f.Adoptable n) :
    (f.addNew n).2.preorder (some f.size) =
      f.size :: (childrenOf n).flatMap fun c => f.preorder (some c) := by
  have hsize : f.size < (f.addNew n).2.size := (size_add f n 0 0).symm ▸ Nat.lt_succ_self _
  have hwf : (f.addNew n).2.WellFormed := wellFormed_add hf hn
  rw [hwf.preorder_children hsize]
  refine congrArg (f.size :: ·) ?_
  have hchildren : (f.addNew n).2.children (some f.size) = childrenOf n := children_add_self
  rw [hchildren]
  exact List.flatMap_congr fun c hc => hf.preorder_add hn (hn.free c hc).1

/-- A new node takes the place of the old child, with the nodes in its slots below it. -/
theorem Exchange.edited_add (h : Exchange (f.addNew n).2 g p old [f.size]) (hf : f.WellFormed)
    (hn : f.Adoptable n) (hlink : f.Link old p) (hp : f.Within p root) (hroot : root < f.size) :
    g.size = f.size + 1 ∧ g.node? (some f.size) = some n ∧
      (∀ k ∈ childrenOf n, g.parent (some k) = some f.size) ∧
      Edited f g root p old [f.size] (childrenOf n)
        (f.size :: (childrenOf n).flatMap fun c => f.preorder (some c)) := by
  have hsize : (f.addNew n).2.size = f.size + 1 := size_add f n 0 0
  have hp' : (f.addNew n).2.Within p root :=
    ReflTransGen.mono (fun _ _ hab => (link_add hn).mpr (.inl hab)) _ _ hp
  have hpsize := hf.lt_size_of_link hlink
  have hold := lt_size_of_parent hlink
  have hedited := h.edited (wellFormed_add hf hn) hp'
  have hnode : ∀ k < f.size, (f.addNew n).2.node? (some k) = f.node? (some k) :=
    fun k hk => node?_add_of_ne (Nat.ne_of_lt hk)
  have hlt : ∀ k < f.size, k < (f.addNew n).2.size := fun k hk => by omega
  refine ⟨h.size.trans hsize, ?_, ?_, ?_⟩
  · rw [hedited.node f.size (by omega) (Nat.ne_of_gt hpsize)]
    exact node?_add_self
  · intro k hk
    have hlt' := (hn.free k hk).1
    have hne : k ≠ old := by
      rintro rfl
      rw [Link, (hn.free k hk).2] at hlink
      cases hlink
    have hnew : k ∉ [f.size] := by simpa using Nat.ne_of_lt hlt'
    rw [hedited.parent k (hlt k hlt') hne hnew List.not_mem_nil]
    exact parent_add_of_mem hlt' hk
  · refine ⟨?_, ?_, hedited.removed, hedited.adopted, ?_, ?_, ?_⟩
    · have hwalk := hedited.walk
      rcases hwalk with ⟨before, after, hbefore, hafter⟩
      refine ⟨before, after, ?_, ?_⟩
      · rw [← hf.preorder_add hn hroot, ← hf.preorder_add hn hold, hbefore]
      · rw [hafter, ← hf.preorder_add_self hn]
        simp
    · rcases hedited.slot with ⟨owner, changed, slots, howner, hslot⟩
      exact ⟨owner, changed, slots, (hnode p hpsize).symm.trans howner, hslot⟩
    · intro k hk hne hplaced hmoved
      rw [hedited.parent k (hlt k hk) hne hplaced List.not_mem_nil]
      exact parent_add_of_ne (Nat.ne_of_lt hk) hmoved
    · intro k hk hne
      rw [hedited.node k (hlt k hk) hne, hnode k hk]
    · intro k hk
      rw [hedited.span k (hlt k hk)]
      exact span?_add_of_ne (Nat.ne_of_lt hk)

end Added

/-!
## Edits
-/

/-- The node stands in a list that may hold any statement. -/
def InStatements (f : Forest) (p old : NodeId) : Prop :=
  ∃ owner entries, f.node? (some p) = some owner ∧ owner.holdsStatements = true ∧
    owner.entries? = some entries ∧ some old ∈ entries

theorem inStatements_iff {owner : Node Slot} (hnode : f.node? (some p) = some owner)
    (slots : List Slot) :
    f.InStatements p old ↔ ∃ changed, spliceStatements? owner (some old) slots = some changed := by
  constructor
  · rintro ⟨owner', entries, hnode', hholds, hentries, hmem⟩
    obtain rfl := Option.some.inj (hnode.symm.trans hnode')
    rcases spliceEntry_of_mem hmem slots with ⟨before, after, -, hsplice⟩
    refine ⟨owner.withEntries (before ++ slots ++ after), ?_⟩
    simp [spliceStatements?, hholds, hentries, hsplice]
  · rintro ⟨changed, h⟩
    unfold spliceStatements? at h
    split at h
    · rename_i hholds
      simp only [Option.map_eq_some_iff, Option.bind_eq_some_iff] at h
      rcases h with ⟨spliced, ⟨entries, hentries, hsplice⟩, -⟩
      refine ⟨owner, entries, hnode, hholds, hentries, ?_⟩
      by_contra hmem
      rw [spliceEntry_of_not_mem hmem] at hsplice
      cases hsplice
    · cases h

/-- The statement that stands for the replacements where there is no list. -/
def StandIn (reps : List NodeId) (n : Node Slot) : Prop :=
  reps = [] ∧ n = .bare .emptyStatement ∨
    1 < reps.length ∧ n = .body .block (reps.map some)

theorem replacements_map {reps : List NodeId} (hnodup : reps.Nodup)
    (hreps : ∀ r ∈ reps, f.Free r ∧ ¬ f.Within old r) :
    f.Replacements (some old) (reps.map some) := by
  refine ⟨hnodup.map (Option.some_injective _), ?_, ?_⟩
  · intro s hs
    obtain ⟨r, hr, rfl⟩ := List.mem_map.mp hs
    exact ⟨r, rfl, (hreps r hr).1⟩
  · intro o i ho hi
    obtain rfl := Option.some.inj ho
    exact (hreps i (by simpa using hi)).2

theorem StandIn.childrenOf {reps : List NodeId} {n : Node Slot} (h : StandIn reps n) :
    childrenOf n = reps := by
  rcases h with ⟨rfl, rfl⟩ | ⟨-, rfl⟩
  · rfl
  · simp [Forest.childrenOf, Node.slots]

/-- In a list the replacements come one after the other where the statement stood. -/
theorem edited_splice_listed (hf : f.WellFormed) (hlink : f.Link old p) (hp : f.Within p root)
    {reps : List NodeId} (hreps : f.Replacements (some old) (reps.map some))
    (hlisted : f.InStatements p old) :
    ∃ g, f.splice (some old) (reps.map some) = (g, true) ∧ g.size = f.size ∧
      Edited f g root p old reps [] (reps.flatMap fun r => f.preorder (some r)) := by
  have hparent : f.parent (some old) = some p := hlink
  rcases hf.exists_owner hlink with ⟨owner, hnode, -⟩
  rcases (inStatements_iff hnode _).mp hlisted with ⟨changed, hsplice⟩
  have hx := exchange_spliceStatements hf hlink hreps hnode hsplice
  have hsome : (reps.map some).filterMap id = reps := by simp
  rw [hsome] at hx
  exact ⟨_, by simp [splice, hparent, hnode, hsplice], hx.size, hx.edited hf hp⟩

/-- In a single slot, one replacement is put in, and one new node stands for none or several. -/
theorem edited_splice_single (hf : f.WellFormed) (hlink : f.Link old p) (hp : f.Within p root)
    (hroot : root < f.size) {reps : List NodeId}
    (hreps : f.Replacements (some old) (reps.map some)) (hsingle : ¬ f.InStatements p old) :
    ∃ g, f.splice (some old) (reps.map some) = (g, true) ∧
      ((∃ r, reps = [r] ∧ g.size = f.size ∧
          Edited f g root p old [r] [] (f.preorder (some r))) ∨
        ∃ n, StandIn reps n ∧ g.size = f.size + 1 ∧ g.node? (some f.size) = some n ∧
          (∀ r ∈ reps, g.parent (some r) = some f.size) ∧
          Edited f g root p old [f.size] reps
            (f.size :: reps.flatMap fun r => f.preorder (some r))) := by
  have hparent : f.parent (some old) = some p := hlink
  rcases hf.exists_owner hlink with ⟨owner, hnode, -⟩
  have hsplice : spliceStatements? owner (some old) (reps.map some) = none := by
    rw [Option.eq_none_iff_forall_ne_some]
    exact fun changed h => hsingle ((inStatements_iff hnode _).mpr ⟨changed, h⟩)
  have hcase : ((f.node? (some p)).bind fun owner =>
      spliceStatements? owner (some old) (reps.map some)) = none := by
    rw [hnode]
    exact hsplice
  match reps with
  | [] =>
      have hstand : StandIn [] (.bare .emptyStatement) := .inl ⟨rfl, rfl⟩
      obtain ⟨g, hg, hx⟩ := replace_of_leaf hf hlink (.bare .emptyStatement) rfl rfl
      have hedited := hx.edited_add hf adoptable_emptyStatement hlink hp hroot
      rw [hstand.childrenOf] at hedited
      refine ⟨g, ?_, .inr ⟨_, hstand, hedited⟩⟩
      simp only [splice, hparent, hcase]
      exact hg
  | [r] =>
      have habove := hreps.below old r rfl (List.mem_singleton.mpr rfl)
      obtain ⟨s, hs, hfree⟩ := hreps.free (some r) (List.mem_singleton.mpr rfl)
      obtain rfl := Option.some.inj hs
      obtain ⟨g, hg, hx⟩ := replace_of_free hf hlink hfree habove
      have hedited := hx.edited hf hp
      rw [List.flatMap_singleton] at hedited
      refine ⟨g, ?_, .inl ⟨r, rfl, hx.size, hedited⟩⟩
      simp only [splice, hparent, hcase]
      exact hg
  | first :: second :: rest =>
      have hstand : StandIn (first :: second :: rest)
          (.body .block ((first :: second :: rest).map some)) :=
        .inr ⟨by simp, rfl⟩
      obtain ⟨g, hg, hx⟩ := replace_of_adoptable hf hlink hreps.adoptable_block
        fun c hc => hreps.below old c rfl (mem_childrenOf.mp hc)
      have hedited := hx.edited_add hf hreps.adoptable_block hlink hp hroot
      rw [hstand.childrenOf] at hedited
      refine ⟨g, ?_, .inr ⟨_, hstand, hedited⟩⟩
      simp only [splice, hparent, hcase]
      exact hg

/-- Below a root, edits always apply. A replacement exchanges one stretch of the walk for
another. A splice puts the walks over all replacements there, in a single slot below the new node
that stands for them. Every other node keeps its payload and its parent. -/
theorem WellFormed.edited_below_root (hf : f.WellFormed) (hwithin : f.Within old root)
    (hne : old ≠ root) :
    ∃ p, f.Link old p ∧
      (∀ i, f.Free i → ¬ f.Within old i →
        ∃ g, f.replace (some old) (some i) = (g, true) ∧ g.size = f.size ∧
          Edited f g root p old [i] [] (f.preorder (some i))) ∧
      ∀ reps : List NodeId, reps.Nodup → (∀ r ∈ reps, f.Free r ∧ ¬ f.Within old r) →
        ∃ g, f.splice (some old) (reps.map some) = (g, true) ∧
          (f.InStatements p old → g.size = f.size ∧
            Edited f g root p old reps [] (reps.flatMap fun r => f.preorder (some r))) ∧
          (¬ f.InStatements p old →
            (∃ r, reps = [r] ∧ g.size = f.size ∧
              Edited f g root p old [r] [] (f.preorder (some r))) ∨
            ∃ n, StandIn reps n ∧ g.size = f.size + 1 ∧ g.node? (some f.size) = some n ∧
              (∀ r ∈ reps, g.parent (some r) = some f.size) ∧
              Edited f g root p old [f.size] reps
                (f.size :: reps.flatMap fun r => f.preorder (some r))) := by
  rcases link_of_strictly_within hwithin hne with ⟨p, hlink, hp⟩
  have hroot : root < f.size := by
    rcases hp.cases_tail with rfl | ⟨q, -, hq⟩
    · exact hf.lt_size_of_link hlink
    · exact hf.lt_size_of_link hq
  refine ⟨p, hlink, fun i hfree habove => ?_, fun reps hnodup hreps => ?_⟩
  · obtain ⟨g, hg, hx⟩ := replace_of_free hf hlink hfree habove
    have hedited := hx.edited hf hp
    rw [List.flatMap_singleton] at hedited
    exact ⟨g, hg, hx.size, hedited⟩
  · have hreplacements := replacements_map hnodup hreps
    by_cases hlisted : f.InStatements p old
    · obtain ⟨g, hg, hedited⟩ := edited_splice_listed hf hlink hp hreplacements hlisted
      exact ⟨g, hg, fun _ => hedited, fun h => absurd hlisted h⟩
    · obtain ⟨g, hg, hedited⟩ := edited_splice_single hf hlink hp hroot hreplacements hlisted
      exact ⟨g, hg, fun h => absurd h hlisted, fun _ => hedited⟩

/-- The name outside the block of two statements takes the place of the first of them. -/
theorem edited_below_root_block :
    twoStatements.WellFormed ∧ twoStatements.Within 1 3 ∧ (1 : NodeId) ≠ 3 ∧
      twoStatements.Free 4 ∧ ¬ twoStatements.Within 1 4 ∧ twoStatements.InStatements 3 1 ∧
      ∃ p, twoStatements.Link 1 p ∧
        (∃ g, twoStatements.replace (some 1) (some 4) = (g, true) ∧
          g.size = twoStatements.size ∧
          Edited twoStatements g 3 p 1 [4] [] (twoStatements.preorder (some 4))) ∧
        ∃ g, twoStatements.splice (some 1) [some 4] = (g, true) ∧
          (twoStatements.InStatements p 1 → g.size = twoStatements.size ∧
            Edited twoStatements g 3 p 1 [4] []
              ([4].flatMap fun r => twoStatements.preorder (some r))) := by
  have hwithin : twoStatements.Within 1 3 :=
    wellFormed_twoStatements.isAttached_iff_within.mp (by decide)
  have hfree : twoStatements.Free 4 := ⟨by decide, rfl⟩
  have habove : ¬ twoStatements.Within 1 4 := fun h =>
    absurd (wellFormed_twoStatements.isAttached_iff_within.mpr h) (by decide)
  rcases wellFormed_twoStatements.edited_below_root hwithin (by decide) with
    ⟨p, hlink, hreplace, hsplice⟩
  rcases hsplice [4] (by decide) (by simpa using ⟨hfree, habove⟩) with ⟨g, hg, hlisted, -⟩
  exact ⟨wellFormed_twoStatements, hwithin, by decide, hfree, habove,
    ⟨_, [some 1, some 2], rfl, rfl, rfl, by decide⟩, p, hlink, hreplace 4 hfree habove,
    g, hg, hlisted⟩

end Forest
end Untangle
