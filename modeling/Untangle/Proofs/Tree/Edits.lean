import Untangle.Proofs.Tree.Exchange

/-!
# Edits keep forests well-formed

Each edit either leaves the forest as it is and says so, or is one exchange of children. In a
well-formed forest an edit of a node that has a parent always applies.
-/

namespace Untangle
namespace Forest

open Relation

variable {f g : Forest} {p old i j : NodeId}

/-!
## Owners
-/

/-- The parent of a node is a node that has it in a slot. -/
theorem WellFormed.exists_owner (h : f.WellFormed) (hlink : f.Link old p) :
    ∃ owner, f.node? (some p) = some owner ∧ some old ∈ owner.slots ∧ FullEntries owner := by
  have hmem := h.linked.mp hlink
  cases hnode : f.node? (some p) with
  | none => simp [children, hnode] at hmem
  | some owner =>
      rw [children_of_node? hnode, mem_childrenOf] at hmem
      exact ⟨owner, rfl, hmem, h.full hnode⟩

theorem WellFormed.not_within_parent (hlink : f.Link old p) (h : ¬ f.Within old i) :
    ¬ f.Within p i :=
  fun hpath => h (.head hlink hpath)

/-!
## Replacing
-/

theorem replace_unchanged (old new : Slot) (h : (f.replace old new).2 = false) :
    (f.replace old new).1 = f := by
  revert h
  unfold replace
  repeat' split
  all_goals simp

/-- A free node takes the place of a child that it is not below. -/
theorem rewired_replace (hf : f.WellFormed) (hlink : f.Link old p) (hfree : f.Free i)
    (habove : ¬ f.Within old i) :
    ∃ g owner, f.replace (some old) (some i) = (g, true) ∧
      Rewired f g p old (owner.replaceFirst (some old) (some i)).1 [i] ∧
      Exchangeable f p old owner (owner.replaceFirst (some old) (some i)).1 [i] := by
  rcases hf.exists_owner hlink with ⟨owner, hnode, hmem, hfull⟩
  have hne : i ≠ old := by
    rintro rfl
    exact habove .refl
  have hfound : (owner.replaceFirst (some old) (some i)).2 = true := by
    rw [Node.replaceFirst_found]
    simpa using hmem
  refine ⟨((f.setNode p (owner.replaceFirst (some old) (some i)).1).setParent (some old)
    none).setParent (some i) (some p), owner, ?_, ⟨by simp, ?_⟩, ?_⟩
  · obtain ⟨cell, hcell⟩ : ∃ cell, f.cell? (some i) = some cell := ⟨_, cell?_of_lt hfree.1⟩
    have hparent : cell.parent = none := by
      have h := hfree.2
      rwa [parent_eq, hcell] at h
    have hlink' : f.parent (some old) = some p := hlink
    simp [replace, hlink', hcell, hparent, hnode, hfound]
  · intro j
    rw [cell?_setParent, cell?_setParent, cell?_setNode]
    cases f.cell? (some j) with
    | none => rfl
    | some cell => grind
  · refine ⟨hnode, hlink, fullEntries_replaceFirst hfull (Or.inl (by simp)), by simp,
      by simpa using hfree, ?_⟩
    simpa using WellFormed.not_within_parent hlink habove

theorem replace_of_free (hf : f.WellFormed) (hlink : f.Link old p) (hfree : f.Free i)
    (habove : ¬ f.Within old i) :
    ∃ g, f.replace (some old) (some i) = (g, true) ∧ Exchange f g p old [i] := by
  rcases rewired_replace hf hlink hfree habove with ⟨g, owner, hg, hrewired, hexchange⟩
  have hmem : some old ∈ owner.slots := by
    rw [← mem_childrenOf, ← children_of_node? hexchange.owner]
    exact hf.linked.mp hlink
  exact ⟨g, hg, owner, _, [some i], hrewired, hexchange, exchanged_replaceFirst hmem _, rfl⟩

/-- A replacement leaves the forest as it is or exchanges one child. -/
theorem replace_cases (hf : f.WellFormed) (old new : Slot)
    (habove : ∀ o i, old = some o → new = some i → ¬ f.Within o i) :
    f.replace old new = (f, false) ∨
      ∃ o p i g, old = some o ∧ new = some i ∧ f.replace old new = (g, true) ∧
        Exchange f g p o [i] := by
  cases hparent : f.parent old with
  | none => exact Or.inl (by simp [replace, hparent])
  | some p =>
      obtain ⟨o, rfl⟩ : ∃ o, old = some o := by
        cases old with
        | none => simp [parent_eq, cell?] at hparent
        | some o => exact ⟨o, rfl⟩
      cases hcell : f.cell? new with
      | none => exact Or.inl (by simp [replace, hparent, hcell])
      | some cell =>
          obtain ⟨i, rfl⟩ : ∃ i, new = some i := by
            cases new with
            | none => simp [cell?] at hcell
            | some i => exact ⟨i, rfl⟩
          cases hfree : cell.parent with
          | some q => exact Or.inl (by simp [replace, hparent, hcell, hfree])
          | none =>
              have hi : f.Free i :=
                ⟨lt_size_of_cell? hcell, by rw [parent_eq, hcell]; exact hfree⟩
              rcases replace_of_free hf hparent hi (habove o i rfl rfl) with ⟨g, hg, hx⟩
              exact Or.inr ⟨o, p, i, g, rfl, rfl, hg, hx⟩

/-!
## Detaching
-/

theorem detach_unchanged (s : Slot) (h : (f.detach s).2 = false) : (f.detach s).1 = f := by
  revert h
  unfold detach
  repeat' split
  all_goals simp

theorem detach_of_link (hf : f.WellFormed) (hlink : f.Link old p) :
    ∃ g, f.detach (some old) = (g, true) ∧ Exchange f g p old [] := by
  rcases hf.exists_owner hlink with ⟨owner, hnode, hmem, hfull⟩
  rcases exchanged_withoutChild hfull hmem with ⟨hfound, hfull', slots, hslots, hnone⟩
  refine ⟨(f.setNode p (withoutChild owner (some old)).1).setParent (some old) none, ?_, ?_⟩
  · have hlink' : f.parent (some old) = some p := hlink
    simp [detach, hlink', hnode, hfound]
  · refine ⟨owner, (withoutChild owner (some old)).1, slots, ⟨by simp, ?_⟩, ?_, hslots, hnone⟩
    · intro j
      rw [cell?_setParent, cell?_setNode]
      cases f.cell? (some j) with
      | none => rfl
      | some cell => grind
    · exact ⟨hnode, hlink, hfull', by simp, by simp, by simp⟩

/-- Only the link from the node that is taken out is gone. -/
theorem Exchange.link_detached (h : Exchange f g p old []) {a b : NodeId} :
    g.Link a b ↔ a ≠ old ∧ f.Link a b := by
  rcases h with ⟨owner, changed, slots, hr, hx, _⟩
  by_cases ha : a < f.size
  · rw [hr.link hx ha]
    simp
  · constructor
    · intro hlink
      exact absurd (hr.size ▸ lt_size_of_parent hlink) ha
    · intro hlink
      exact absurd (lt_size_of_parent hlink.2) ha

theorem Exchange.within_detached (h : Exchange f g p old []) {a b : NodeId}
    (hpath : g.Within a b) : f.Within a b :=
  ReflTransGen.mono (fun _ _ hlink => (h.link_detached.mp hlink).2) _ _ hpath

theorem Exchange.free_detached (h : Exchange f g p old []) : g.Free old := by
  rcases h with ⟨owner, changed, slots, hr, hx, _⟩
  have hlt := lt_size_of_parent hx.linked
  constructor
  · rw [hr.size]
    exact hlt
  · rw [hr.parent hlt, if_pos rfl]

theorem detach_of_parent_none {s : Slot} (h : f.parent s = none) :
    f.detach s = (f, false) := by
  simp [detach, h]

/-!
## Splicing
-/

/-- The nodes that may take the place of `old`: different free nodes, `old` not among their
descendants. -/
structure Replacements (f : Forest) (old : Slot) (new : List Slot) : Prop where
  nodup : new.Nodup
  free : ∀ s ∈ new, ∃ i, s = some i ∧ f.Free i
  below : ∀ o i, old = some o → some i ∈ new → ¬ f.Within o i

theorem Replacements.none_not_mem {s : Slot} {new : List Slot} (h : f.Replacements s new) :
    none ∉ new := by
  intro hmem
  rcases h.free none hmem with ⟨i, hi, _⟩
  cases hi

theorem Replacements.mem_filterMap {s : Slot} {new : List Slot} (h : f.Replacements s new) :
    i ∈ new.filterMap id → f.Free i := by
  intro hmem
  rcases h.free (some i) (by simpa using hmem) with ⟨j, hj, hfree⟩
  exact Option.some.inj hj ▸ hfree

theorem nodup_filterMap_id {new : List Slot} (h : new.Nodup) : (new.filterMap id).Nodup := by
  refine h.filterMap fun a b c hac hbc => ?_
  simp only [id_eq, Option.mem_def] at hac hbc
  rw [hac, hbc]

theorem rewired_spliceStatements {owner changed : Node Slot} {new : List Slot}
    (hf : f.WellFormed) (hlink : f.Link old p) (hnew : f.Replacements (some old) new)
    (hnode : f.node? (some p) = some owner)
    (h : spliceStatements? owner (some old) new = some changed) :
    Rewired f ((new.foldl (fun g s => g.setParent s (some p))
        (f.setNode p changed)).setParent (some old) none) p old changed (new.filterMap id) ∧
      Exchangeable f p old owner changed (new.filterMap id) := by
  rcases exchanged_spliceStatements (hf.full hnode) hnew.none_not_mem h with ⟨_, hfull⟩
  refine ⟨⟨?_, ?_⟩, ⟨hnode, hlink, hfull, nodup_filterMap_id hnew.nodup, ?_, ?_⟩⟩
  · rw [size_setParent, size_adopt, size_setNode]
  · intro j
    rw [cell?_setParent, cell?_adopt, cell?_setNode]
    cases f.cell? (some j) with
    | none => rfl
    | some cell => grind
  · exact fun i hi => hnew.mem_filterMap hi
  · intro i hi
    exact WellFormed.not_within_parent hlink (hnew.below old i rfl (by simpa using hi))

theorem exchange_spliceStatements {owner changed : Node Slot} {new : List Slot}
    (hf : f.WellFormed) (hlink : f.Link old p) (hnew : f.Replacements (some old) new)
    (hnode : f.node? (some p) = some owner)
    (h : spliceStatements? owner (some old) new = some changed) :
    Exchange f ((new.foldl (fun g s => g.setParent s (some p))
      (f.setNode p changed)).setParent (some old) none) p old (new.filterMap id) := by
  rcases rewired_spliceStatements hf hlink hnew hnode h with ⟨hr, hx⟩
  rcases exchanged_spliceStatements (hf.full hnode) hnew.none_not_mem h with ⟨hslots, _⟩
  exact ⟨owner, changed, new, hr, hx, hslots, rfl⟩

/-- A new node with free children may take the place of a node that is below none of them. -/
theorem replace_of_adoptable {n : Node Slot} (hf : f.WellFormed) (hlink : f.Link old p)
    (hn : f.Adoptable n) (habove : ∀ c ∈ childrenOf n, ¬ f.Within old c) :
    ∃ g, (f.addNew n).2.replace (some old) (some f.size) = (g, true) ∧
      Exchange (f.addNew n).2 g p old [f.size] := by
  refine replace_of_free (wellFormed_add hf hn) ((link_add hn).mpr (Or.inl hlink))
    (free_add_self hn) ?_
  intro hpath
  rcases within_add_self hf hn hpath with heq | ⟨c, hc, hold⟩
  · exact Nat.lt_irrefl _ (heq ▸ lt_size_of_parent hlink)
  · exact habove c hc hold

/-- A new node without parts may take the place of any node. -/
theorem replace_of_leaf (hf : f.WellFormed) (hlink : f.Link old p) (n : Node Slot)
    (hslots : n.slots = []) (hentries : n.entries? = none) :
    ∃ g, (f.addNew n).2.replace (some old) (some f.size) = (g, true) ∧
      Exchange (f.addNew n).2 g p old [f.size] := by
  apply replace_of_adoptable hf hlink (adoptable_of_leaf hslots hentries)
  simp [childrenOf, hslots]

theorem adoptable_emptyStatement : f.Adoptable (.bare .emptyStatement) :=
  adoptable_of_leaf rfl rfl

theorem Replacements.adoptable_block {s : Slot} {new : List Slot} (h : f.Replacements s new) :
    f.Adoptable (.body .block new) := by
  refine ⟨fun c hc => h.mem_filterMap hc, nodup_filterMap_id h.nodup, ?_⟩
  intro entries hentries
  exact Option.some.inj hentries ▸ h.none_not_mem

/-- A statement that has a parent is exchanged for its replacements, or for one new statement that
stands for all of them. -/
theorem splice_of_link (hf : f.WellFormed) (hlink : f.Link old p) {new : List Slot}
    (hnew : f.Replacements (some old) new) :
    ∃ g, f.splice (some old) new = (g, true) ∧
      (Exchange f g p old (new.filterMap id) ∨
        ∃ n, (n = .bare .emptyStatement ∨ n = .body .block new) ∧ f.Adoptable n ∧
          (f.addNew n).2.replace (some old) (some f.size) = (g, true) ∧
          Exchange (f.addNew n).2 g p old [f.size]) := by
  have hparent : f.parent (some old) = some p := hlink
  rcases hf.exists_owner hlink with ⟨owner, hnode, _⟩
  cases hsplice : spliceStatements? owner (some old) new with
  | some changed =>
      exact ⟨_, by simp [splice, hparent, hnode, hsplice],
        Or.inl (exchange_spliceStatements hf hlink hnew hnode hsplice)⟩
  | none =>
      match new with
      | [] =>
          obtain ⟨g, hg, hx⟩ := replace_of_leaf hf hlink (.bare .emptyStatement) rfl rfl
          exact ⟨g, by simpa [splice, hparent, hnode, hsplice] using hg,
            Or.inr ⟨_, Or.inl rfl, adoptable_emptyStatement, hg, hx⟩⟩
      | [statement] =>
          rcases hnew.free statement (by simp) with ⟨i, rfl, hfree⟩
          obtain ⟨g, hg, hx⟩ := replace_of_free hf hlink hfree (hnew.below old i rfl (by simp))
          exact ⟨g, by simpa [splice, hparent, hnode, hsplice] using hg, Or.inl hx⟩
      | first :: second :: rest =>
          obtain ⟨g, hg, hx⟩ := replace_of_adoptable hf hlink hnew.adoptable_block
            fun c hc => hnew.below old c rfl (mem_childrenOf.mp hc)
          exact ⟨g, by simpa [splice, hparent, hnode, hsplice] using hg,
            Or.inr ⟨_, Or.inr rfl, hnew.adoptable_block, hg, hx⟩⟩

/-- A splice leaves the forest as it is, exchanges a statement for its replacements, or adds one
statement that stands for all of them and exchanges it for that one. -/
theorem splice_cases (hf : f.WellFormed) {s : Slot} {new : List Slot}
    (hnew : f.Replacements s new) :
    f.splice s new = (f, false) ∨ ∃ o p g, s = some o ∧ f.splice s new = (g, true) ∧
      (Exchange f g p o (new.filterMap id) ∨
        ∃ n, f.Adoptable n ∧ Exchange (f.addNew n).2 g p o [f.size]) := by
  cases hparent : f.parent s with
  | none => exact Or.inl (by simp [splice, hparent])
  | some p =>
      cases s with
      | none => simp [parent_eq, cell?] at hparent
      | some o =>
          rcases splice_of_link hf hparent hnew with ⟨g, hg, hx | ⟨n, _, hn, _, hx⟩⟩
          · exact Or.inr ⟨o, p, g, rfl, hg, Or.inl hx⟩
          · exact Or.inr ⟨o, p, g, rfl, hg, Or.inr ⟨n, hn, hx⟩⟩

/-!
## What every edit keeps
-/

theorem wellFormed_replace (hf : f.WellFormed) {old new : Slot}
    (habove : ∀ o i, old = some o → new = some i → ¬ f.Within o i) :
    (f.replace old new).1.WellFormed := by
  rcases replace_cases hf old new habove with hsame | ⟨o, p, i, g, _, _, hg, hx⟩
  · rwa [hsame]
  · rw [hg]
    exact hx.wellFormed hf

theorem wellFormed_detach (hf : f.WellFormed) (s : Slot) : (f.detach s).1.WellFormed := by
  cases hparent : f.parent s with
  | none => rwa [detach_of_parent_none hparent]
  | some p =>
      cases s with
      | none => simp [parent_eq, cell?] at hparent
      | some o =>
          rcases detach_of_link hf hparent with ⟨g, hg, hx⟩
          rw [hg]
          exact hx.wellFormed hf

theorem wellFormed_splice (hf : f.WellFormed) {s : Slot} {new : List Slot}
    (hnew : f.Replacements s new) : (f.splice s new).1.WellFormed := by
  rcases splice_cases hf hnew with hsame | ⟨o, p, g, _, hg, hx | ⟨n, hn, hx⟩⟩
  · rwa [hsame]
  · rw [hg]
    exact hx.wellFormed hf
  · rw [hg]
    exact hx.wellFormed (wellFormed_add hf hn)

theorem splice_unchanged (hf : f.WellFormed) {s : Slot} {new : List Slot}
    (hnew : f.Replacements s new) (h : (f.splice s new).2 = false) : (f.splice s new).1 = f := by
  rcases splice_cases hf hnew with hsame | ⟨o, p, g, _, hg, _⟩
  · rw [hsame]
  · rw [hg] at h
    cases h

end Forest
end Untangle
