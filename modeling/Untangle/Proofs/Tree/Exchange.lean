import Untangle.Proofs.Tree.Growth
import Untangle.Proofs.Tree.Subtree

/-!
# Exchanging children

Every edit exchanges one child of a node for some free nodes: one for a replacement, none for a
removal, any number in a list of statements. The exchange is described cell by cell, and it keeps
a forest well-formed whenever no new child lies above the node that receives it.
-/

namespace Untangle
namespace Forest

open Relation

/-!
## Exchanged slots
-/

/-- The slots of `changed` are those of `owner`, with `new` in place of one that holds `old`. -/
def Exchanged (owner changed : Node Slot) (old : NodeId) (new : List Slot) : Prop :=
  ∃ before after, owner.slots = before ++ some old :: after ∧
    changed.slots = before ++ new ++ after

/-- All cells of `g` are those of `f`, except that `changed` stands at `p` with the children
`new` in place of `old`. -/
structure Rewired (f g : Forest) (p old : NodeId) (changed : Node Slot) (new : List NodeId) :
    Prop where
  size : g.size = f.size
  cell : ∀ j, g.cell? (some j) = (f.cell? (some j)).map fun c =>
    { c with
      node := if j = p then changed else c.node
      parent := if j = old then none else if j ∈ new then some p else c.parent }

section Rewired

variable {f g : Forest} {p old i j : NodeId} {owner changed : Node Slot} {new : List NodeId}

theorem Rewired.parent (h : Rewired f g p old changed new) (hj : j < f.size) :
    g.parent (some j) =
      if j = old then none else if j ∈ new then some p else f.parent (some j) := by
  rw [parent_eq, parent_eq, h.cell, cell?_of_lt hj]
  rfl

theorem Rewired.node?_self (h : Rewired f g p old changed new) (hp : p < f.size) :
    g.node? (some p) = some changed := by
  rw [node?_eq, h.cell, cell?_of_lt hp]
  simp

theorem Rewired.node?_of_ne (h : Rewired f g p old changed new) (hi : i ≠ p) :
    g.node? (some i) = f.node? (some i) := by
  rw [node?_eq, node?_eq, h.cell]
  cases f.cell? (some i) with
  | none => rfl
  | some c => simp [hi]

theorem Rewired.children_of_ne (h : Rewired f g p old changed new) (hi : i ≠ p) :
    g.children (some i) = f.children (some i) := by
  rw [children, children, h.node?_of_ne hi]

/-- What an exchange needs of the nodes involved. -/
structure Exchangeable (f : Forest) (p old : NodeId) (owner changed : Node Slot)
    (new : List NodeId) : Prop where
  owner : f.node? (some p) = some owner
  linked : f.Link old p
  full : FullEntries changed
  nodup : new.Nodup
  free : ∀ i ∈ new, f.Free i
  above : ∀ i ∈ new, ¬ f.Within p i

theorem Rewired.link (h : Rewired f g p old changed new)
    (hx : Exchangeable f p old owner changed new) {a b : NodeId} (ha : a < f.size) :
    g.Link a b ↔ (a ∈ new ∧ b = p) ∨ (a ≠ old ∧ f.Link a b) := by
  rw [Link, h.parent ha]
  have hold : old ∉ new := by
    intro hmem
    have hnone := (hx.free old hmem).2
    rw [hx.linked] at hnone
    cases hnone
  by_cases ha : a = old
  · simp [ha, hold]
  · by_cases hmem : a ∈ new
    · simp [ha, hmem, Link, (hx.free a hmem).2, eq_comm]
    · simp [ha, hmem, Link]

theorem Rewired.wellFormed (h : Rewired f g p old changed new)
    (hf : f.WellFormed) (hx : Exchangeable f p old owner changed new)
    {slots : List Slot} (hslots : Exchanged owner changed old slots)
    (hnew : slots.filterMap id = new) : g.WellFormed := by
  have hp : p < f.size := hf.lt_size_of_link hx.linked
  rcases hslots with ⟨before, after, howner, hchanged⟩
  -- The children of `p` before and after: only the middle differs.
  have hfp : f.children (some p) = before.filterMap id ++ old :: after.filterMap id := by
    simp [children_of_node? hx.owner, childrenOf, howner]
  have hgp : g.children (some p) = before.filterMap id ++ new ++ after.filterMap id := by
    rw [children_of_node? (h.node?_self hp), childrenOf, hchanged, List.filterMap_append,
      List.filterMap_append, hnew]
  have hnodup := hf.nodup p
  rw [hfp] at hnodup
  have hnotLinked : ∀ i ∈ new, ∀ q, i ∉ f.children (some q) := by
    intro i hi q hmem
    have hparent := hf.linked.mpr hmem
    rw [(hx.free i hi).2] at hparent
    cases hparent
  have hfilled : ∀ {q c}, c ∈ g.children (some q) → c < f.size := by
    intro q c hc
    by_cases hq : q = p
    · rw [hq, hgp] at hc
      by_cases hmem : c ∈ new
      · exact (hx.free c hmem).1
      · apply hf.filled (p := p)
        rw [hfp]
        grind
    · rw [h.children_of_ne hq] at hc
      exact hf.filled hc
  refine .of_nodup (h.size ▸ hfilled) ?_ ?_ ?_ ?_
  · intro q
    by_cases hq : q = p
    · have hdisjoint := fun i hi => hnotLinked i hi p
      rw [hfp] at hdisjoint
      have hn := hx.nodup
      rw [hq, hgp]
      grind [List.nodup_append]
    · rw [h.children_of_ne hq]
      exact hf.nodup q
  · intro q c
    by_cases hc : c < f.size
    · change g.Link c q ↔ _
      rw [h.link hx hc]
      by_cases hq : q = p
      · have hlink : f.Link c q ↔ c ∈ f.children (some q) := hf.linked
        rw [hlink, hq, hfp, hgp]
        grind
      · have hold : c ∈ f.children (some q) → c ≠ old := by
          rintro hmem rfl
          exact hq (Link.unique (hf.linked.mpr hmem) hx.linked)
        rw [h.children_of_ne hq, ← hf.linked]
        simpa [hq, Link] using fun hlink => hold (hf.linked.mp hlink)
    · constructor
      · intro hparent
        exact absurd (h.size ▸ lt_size_of_parent hparent) hc
      · intro hmem
        exact absurd (hfilled hmem) hc
  · intro i n hn
    by_cases hi : i = p
    · rw [hi, h.node?_self hp] at hn
      exact Option.some.inj hn ▸ hx.full
    · rw [h.node?_of_ne hi] at hn
      exact hf.full hn
  · refine acyclic_of_new_edges (r := f.Link) (S := (· ∈ new)) (p := p) ?_ hx.above hf.acyclic
    intro a b hab
    have ha : a < f.size := h.size ▸ lt_size_of_parent hab
    rcases (h.link hx ha).mp hab with hnew | ⟨_, hold⟩
    · exact Or.inr hnew
    · exact Or.inl hold

/-- `g` is `f` after the exchange of the child `old` of `p` for the children `new`. -/
def Exchange (f g : Forest) (p old : NodeId) (new : List NodeId) : Prop :=
  ∃ owner changed slots, Rewired f g p old changed new ∧
    Exchangeable f p old owner changed new ∧ Exchanged owner changed old slots ∧
    slots.filterMap id = new

theorem Exchange.size (h : Exchange f g p old new) : g.size = f.size := by
  rcases h with ⟨owner, changed, slots, hr, _⟩
  exact hr.size

theorem Exchange.wellFormed (h : Exchange f g p old new) (hf : f.WellFormed) :
    g.WellFormed := by
  rcases h with ⟨owner, changed, slots, hr, hx, hslots, hnew⟩
  exact hr.wellFormed hf hx hslots hnew

end Rewired

/-!
## How nodes exchange slots
-/

section Nodes

variable {owner changed : Node Slot} {old : NodeId}

theorem exchanged_replaceFirst (hmem : some old ∈ owner.slots) (new : Slot) :
    Exchanged owner (owner.replaceFirst (some old) new).1 old [new] := by
  rcases List.eq_append_cons_of_mem hmem with ⟨before, after, hslots, hnot⟩
  refine ⟨before, after, hslots, ?_⟩
  rw [Node.slots_replaceFirst, hslots, List.replace_append_right hnot, List.replace_cons_self,
    List.append_assoc]
  rfl

theorem fullEntries_replaceFirst (hfull : FullEntries owner) {new : Slot}
    (h : new ≠ none ∨ ∀ entries, owner.entries? = some entries → some old ∉ entries) :
    FullEntries (owner.replaceFirst (some old) new).1 := by
  intro entries hentries hmem
  have hslots := Node.forall₂_replace (some old) new owner.slots
  rw [← Node.slots_replaceFirst] at hslots
  obtain ⟨before, slot, hbefore, hslot, hstep⟩ := Node.exists_mem_entries
    (Node.blank_replaceFirst owner (some old) new) hslots hentries hmem
  rcases hstep with heq | ⟨hold, hnew⟩
  · exact hfull before hbefore (heq ▸ hslot)
  · rcases h with hne | hnot
    · exact hne hnew.symm
    · exact hnot before hbefore (hold ▸ hslot)

theorem exchanged_withEntries {entries : List Slot} (hentries : owner.entries? = some entries)
    {new : List Slot} {before after : List Slot} (hsplit : entries = before ++ some old :: after) :
    Exchanged owner (owner.withEntries (before ++ new ++ after)) old new := by
  rcases Node.slots_split hentries with ⟨front, back, hslots, hchanged⟩
  refine ⟨front ++ before, after ++ back, ?_, ?_⟩
  · rw [hslots, hsplit]
    simp
  · rw [hchanged]
    simp

theorem fullEntries_withEntries {entries : List Slot} (hentries : owner.entries? = some entries)
    (hfull : FullEntries owner) {new : List Slot} {before after : List Slot}
    (hsplit : entries = before ++ some old :: after) (hnew : none ∉ new) :
    FullEntries (owner.withEntries (before ++ new ++ after)) := by
  intro changed hchanged
  rw [Node.entries?_withEntries hentries] at hchanged
  have hnone := hfull entries hentries
  rw [← Option.some.inj hchanged]
  grind

/-- Taking a child out drops an entry of the list or empties another slot. -/
theorem exchanged_withoutChild (hfull : FullEntries owner) (hmem : some old ∈ owner.slots) :
    (withoutChild owner (some old)).2 = true ∧
      FullEntries (withoutChild owner (some old)).1 ∧
      ∃ slots, Exchanged owner (withoutChild owner (some old)).1 old slots ∧
        slots.filterMap id = [] := by
  have hsingle : (∀ entries, owner.entries? = some entries → some old ∉ entries) →
      (owner.replaceFirst (some old) none).2 = true ∧
        FullEntries (owner.replaceFirst (some old) none).1 ∧
        ∃ slots, Exchanged owner (owner.replaceFirst (some old) none).1 old slots ∧
          slots.filterMap id = [] := by
    intro hnot
    refine ⟨?_, fullEntries_replaceFirst hfull (Or.inr hnot), [none],
      exchanged_replaceFirst hmem none, rfl⟩
    rw [Node.replaceFirst_found]
    simpa using hmem
  unfold withoutChild
  cases hentries : owner.entries? with
  | none =>
      exact hsingle fun entries h => by simp [hentries] at h
  | some entries =>
      by_cases hin : some old ∈ entries
      · simp only [List.contains_eq_mem, hin, decide_true, if_true, true_and]
        rcases List.exists_erase_eq hin with ⟨before, after, _, hsplit, herase⟩
        rw [herase]
        have hx := @exchanged_withEntries _ _ _ hentries [] _ _ hsplit
        have hfull' := @fullEntries_withEntries _ _ _ hentries hfull [] _ _ hsplit (by simp)
        rw [List.append_nil] at hx hfull'
        exact ⟨hfull', [], hx, rfl⟩
      · simp only [List.contains_eq_mem, hin, decide_false]
        refine hsingle fun entries' h => ?_
        rw [hentries] at h
        exact Option.some.inj h ▸ hin

theorem spliceEntry_of_mem {entries : List Slot} (hmem : some old ∈ entries) (new : List Slot) :
    ∃ before after, entries = before ++ some old :: after ∧
      spliceEntry (some old) new entries = some (before ++ new ++ after) := by
  induction entries with
  | nil => cases hmem
  | cons entry rest ih =>
      by_cases heq : entry = some old
      · exact ⟨[], rest, by rw [heq]; rfl, by simp [spliceEntry, heq]⟩
      · have hrest : some old ∈ rest := by
          rcases List.mem_cons.mp hmem with hhead | hrest
          · exact absurd hhead.symm heq
          · exact hrest
        rcases ih hrest with ⟨before, after, hsplit, hsplice⟩
        exact ⟨entry :: before, after, by rw [hsplit]; rfl, by simp [spliceEntry, heq, hsplice]⟩

theorem spliceEntry_of_not_mem {entries : List Slot} {s : Slot} (hmem : s ∉ entries)
    (new : List Slot) : spliceEntry s new entries = none := by
  induction entries with
  | nil => rfl
  | cons entry rest ih =>
      rw [List.mem_cons, not_or] at hmem
      simp [spliceEntry, Ne.symm hmem.1, ih hmem.2]

theorem exchanged_spliceStatements {new : List Slot} (hfull : FullEntries owner)
    (hnew : none ∉ new) (h : spliceStatements? owner (some old) new = some changed) :
    Exchanged owner changed old new ∧ FullEntries changed := by
  unfold spliceStatements? at h
  split at h
  · simp only [Option.map_eq_some_iff, Option.bind_eq_some_iff] at h
    rcases h with ⟨spliced, ⟨entries, hentries, hsplice⟩, rfl⟩
    by_cases hin : some old ∈ entries
    · rcases spliceEntry_of_mem hin new with ⟨before, after, hsplit, hspliced⟩
      rw [hsplice] at hspliced
      rw [Option.some.inj hspliced]
      exact ⟨exchanged_withEntries hentries hsplit,
        fullEntries_withEntries hentries hfull hsplit hnew⟩
    · rw [spliceEntry_of_not_mem hin] at hsplice
      cases hsplice
  · cases h

end Nodes
end Forest
end Untangle
