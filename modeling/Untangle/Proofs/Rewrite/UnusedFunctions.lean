import Untangle.Proofs.Rewrite.Running
import Untangle.Proofs.Rewrite.StatementProxies
import Untangle.Proofs.Scope.Dropped
import Untangle.Proofs.Tree.Sequence
import Untangle.Rewrite.StringProxies

/-!
# Removing unused functions

A function declaration is dropped from its list of statements, or an empty statement takes its
place. When no used name stands for it, nothing else changes for the names that are left.
-/

namespace Untangle

open Forest
open Relation (ReflTransGen)

/-!
## Removing a declaration
-/

namespace Forest

variable {f f' g : Forest} {root d p : NodeId} {owner changed : Node Slot} {ident : Slot}
  {c : NodeId → NodeId}

theorem spliceEntry_nil {entries spliced : List Slot} {s : Slot}
    (h : spliceEntry s [] entries = some spliced) : spliced = entries.erase s := by
  induction entries generalizing spliced with
  | nil => cases h
  | cons entry rest ih =>
      rw [spliceEntry] at h
      split at h
      · rename_i heq
        subst heq
        rw [List.erase_cons_head]
        exact (Option.some.inj h).symm
      · rename_i hne
        rcases Option.map_eq_some_iff.mp h with ⟨rest', hrest, rfl⟩
        rw [List.erase_cons_tail (by simpa using hne), ih hrest]

/-- A node that keeps its list of statements without one of them is revised so. -/
theorem revision_spliceStatements (h : spliceStatements? owner (some d) [] = some changed) :
    Revision f g (some d) id owner changed := by
  unfold spliceStatements? at h
  split at h
  · rcases Option.map_eq_some_iff.mp h with ⟨spliced, hbind, rfl⟩
    rcases Option.bind_eq_some_iff.mp hbind with ⟨entries, hentries, hsplice⟩
    obtain rfl := spliceEntry_nil hsplice
    have hmap : ∀ slots : List Slot, slots.map (Option.map id) = slots := by simp
    cases owner with
    | body form statements =>
        obtain rfl := Option.some.inj hentries
        have hrevision : Revision f g (some d) id _ _ := .body form statements rfl
        rwa [hmap] at hrevision
    | caseClause test statements =>
        obtain rfl := Option.some.inj hentries
        have hrevision : Revision f g (some d) id _ _ := .clause test statements rfl
        rwa [hmap, Option.map_id, id] at hrevision
    | _ => cases ‹Node.holdsStatements _ = true›
  · cases h

/-- The tree has lost a function when its nodes are revised and keep their parents. -/
theorem dropped_of_revised (hf : f.HasProgram root) (hg : g.WellFormed)
    (hrevised : Revised f g (some d) c) (hfresh : ∀ {i}, c i ≠ i → f.size ≤ c i)
    (hparent : ∀ {i}, i < f.size → i ≠ d → g.parent (some i) = f.parent (some i))
    (hgone : g.parent (some d) = none)
    (hnew : ∀ {i n}, f.size ≤ i → g.node? (some i) = some n → n = .bare .emptyStatement) :
    Dropped f g root d c := by
  rcases hf.node with ⟨statements, hroot⟩
  rcases hrevised.dead rfl with ⟨_, _, _, _, _, hdead⟩
  have hne : d ≠ root := by
    rintro rfl
    cases hroot.symm.trans hdead
  have hout : ¬ g.Within d root := by
    intro hpath
    rcases ReflTransGen.cases_head hpath with heq | ⟨q, hlink, _⟩
    · exact hne heq
    · cases hgone.symm.trans hlink
  have hprogram : g.HasProgram root := by
    refine ⟨hg, ?_, ?_⟩
    · rw [hparent (lt_size_of_node? hroot) hne.symm]
      exact hf.parent
    · obtain ⟨n', hn', hrevision⟩ := hrevised.node hroot
      cases hrevision with
      | mapped => exact ⟨_, hn'.trans (congrArg some (Node.map_body ..))⟩
      | body _ _ _ => exact ⟨_, hn'⟩
  refine ⟨⟨hrevised, hfresh, ?_⟩, hf, hprogram, hout, hnew⟩
  intro i hi hlt _
  refine hparent hlt ?_
  rintro rfl
  exact hout hi

/-- The declaration is dropped from the list of statements that it stands in. -/
theorem dropped_of_list (hf : f.HasProgram root) (hd : f.DeclaresFunction d ident)
    (hr : Rewired f g p d changed []) (hx : Exchangeable f p d owner changed []) (hg : g.WellFormed)
    (h : spliceStatements? owner (some d) [] = some changed) : Dropped f g root d id := by
  have hp := lt_size_of_node? hx.owner
  rcases hd with ⟨parameters, code, isAsync, isGenerator, hdn⟩
  refine dropped_of_revised hf hg ⟨?_, fun hne => absurd rfl hne, ?_⟩ (fun hne => absurd rfl hne)
    ?_ ?_ ?_
  · intro i n hn
    by_cases hi : i = p
    · subst hi
      obtain rfl := Option.some.inj (hx.owner.symm.trans hn)
      exact ⟨changed, hr.node?_self hp, revision_spliceStatements h⟩
    · exact ⟨n, (hr.node?_of_ne hi).trans hn, .same n⟩
  · rintro _ ⟨⟩
    exact ⟨ident, parameters, code, isAsync, isGenerator, hdn⟩
  · intro i hlt hne
    rw [hr.parent hlt, if_neg hne, if_neg List.not_mem_nil]
  · rw [hr.parent (lt_size_of_node? hdn), if_pos rfl]
  · intro i n hle hn
    exact absurd (hr.size ▸ lt_size_of_node? hn) (Nat.not_lt.mpr hle)

/-- An empty statement takes the place of the declaration. -/
theorem dropped_of_slot (hf : f.HasProgram root) (hd : f.DeclaresFunction d ident)
    (hr : Rewired (f.addNew (.bare .emptyStatement)).2 g p d
      (owner.replaceFirst (some d) (some f.size)).1 [f.size])
    (hnode : f.node? (some p) = some owner) (hlink : f.Link d p) (hg : g.WellFormed) :
    Dropped f g root d fun i => if i = d then f.size else i := by
  have hwf := hf.wellFormed
  have hp := lt_size_of_node? hnode
  have hsize : (f.addNew (.bare .emptyStatement)).2.size = f.size + 1 := size_add ..
  rcases hd with ⟨parameters, code, isAsync, isGenerator, hdn⟩
  have hdlt := lt_size_of_node? hdn
  have hempty : g.node? (some f.size) = some (.bare .emptyStatement) :=
    (hr.node?_of_ne (Nat.ne_of_gt hp)).trans node?_add_self
  refine dropped_of_revised hf hg ⟨?_, ?_, ?_⟩ ?_ ?_ ?_ ?_
  · intro i n hn
    have hmapped : Revision f g (some d) (fun i => if i = d then f.size else i) n _ := .mapped n
    by_cases hi : i = p
    · subst hi
      obtain rfl := Option.some.inj (hnode.symm.trans hn)
      refine ⟨_, hr.node?_self (hsize ▸ Nat.lt_succ_of_lt hp), ?_⟩
      have hnodup := hwf.nodup i
      rw [children_of_node? hn] at hnodup
      have hsame : (owner.replaceFirst (some d) (some f.size)).1 =
          owner.map (Option.map fun i => if i = d then f.size else i) := by
        apply Node.eq_of_blank_of_slots
        · rw [Node.blank_replaceFirst, Node.blank_map]
        · rw [Node.slots_replaceFirst, Node.slots_map, replace_eq_map rfl hnodup]
          refine List.map_congr_left fun s _ => ?_
          cases s with
          | none => rfl
          | some k => by_cases hk : k = d <;> simp [hk]
      rwa [← hsame] at hmapped
    · refine ⟨n, ?_, ?_⟩
      · rw [hr.node?_of_ne hi, addNew, node?_add_of_ne (Nat.ne_of_lt (lt_size_of_node? hn)), hn]
      · have hsame : n.map (Option.map fun i => if i = d then f.size else i) = n := by
          refine (Node.map_congr fun s hs => ?_).trans n.map_id
          cases s with
          | none => rfl
          | some k =>
              refine congrArg some (if_neg ?_)
              rintro rfl
              exact hi (Link.unique (hwf.link_of_slot hn hs) hlink)
        rwa [hsame] at hmapped
  · intro i hi
    by_cases heq : i = d
    · subst heq
      exact ⟨rfl, by rwa [if_pos rfl]⟩
    · exact absurd (if_neg heq) hi
  · rintro _ ⟨⟩
    exact ⟨ident, parameters, code, isAsync, isGenerator, hdn⟩
  · intro i hi
    by_cases heq : i = d
    · exact (if_pos heq).ge
    · exact absurd (if_neg heq) hi
  · intro i hlt hne
    have hparent : (f.addNew (.bare .emptyStatement)).2.parent (some i) = f.parent (some i) :=
      parent_add_of_ne (Nat.ne_of_lt hlt) List.not_mem_nil
    rw [hr.parent (hsize ▸ Nat.lt_succ_of_lt hlt), if_neg hne, if_neg, hparent]
    simpa using Nat.ne_of_lt hlt
  · rw [hr.parent (hsize ▸ Nat.lt_succ_of_lt hdlt), if_pos rfl]
  · intro i n hle hn
    have hlt : i < f.size + 1 := by
      rw [← hsize, ← hr.size]
      exact lt_size_of_node? hn
    obtain rfl : i = f.size := Nat.le_antisymm (Nat.le_of_lt_succ hlt) hle
    exact Option.some.inj (hn.symm.trans hempty)

/-- Removing a function of the tree always succeeds. -/
theorem exists_dropped (hf : f.HasProgram root) (hd : f.DeclaresFunction d ident)
    (hin : f.Within d root) : ∃ g c, f.remove (some d) = (g, true) ∧ Dropped f g root d c := by
  have hwf := hf.wellFormed
  obtain ⟨p, hlink⟩ : ∃ p, f.Link d p := by
    rcases ReflTransGen.cases_head hin with rfl | ⟨p, hlink, _⟩
    · rcases hf.node with ⟨statements, hn⟩
      rcases hd with ⟨_, _, _, _, hdn⟩
      cases hn.symm.trans hdn
    · exact ⟨p, hlink⟩
  have hparent : f.parent (some d) = some p := hlink
  rcases hwf.exists_owner hlink with ⟨owner, hnode, _⟩
  cases hsplice : spliceStatements? owner (some d) [] with
  | some changed =>
      have hnew := replacements_nil f (some d)
      rcases rewired_spliceStatements hwf hlink hnew hnode hsplice with ⟨hr, hx⟩
      have hg := (exchange_spliceStatements hwf hlink hnew hnode hsplice).wellFormed hwf
      refine ⟨_, id, ?_, dropped_of_list hf hd hr hx hg hsplice⟩
      simp [remove, splice, hparent, hnode, hsplice]
  | none =>
      have hadopt : f.Adoptable (.bare .emptyStatement) := adoptable_emptyStatement
      have hwf' : (f.addNew (.bare .emptyStatement)).2.WellFormed := wellFormed_add hwf hadopt
      have habove : ¬ (f.addNew (.bare .emptyStatement)).2.Within d f.size := by
        intro hpath
        rcases within_add_self hwf hadopt hpath with heq | ⟨c, hc, _⟩
        · exact Nat.lt_irrefl _ (heq ▸ lt_size_of_parent hlink)
        · cases hc
      rcases rewired_replace hwf' ((link_add hadopt).mpr (.inl hlink)) (free_add_self hadopt) habove
        with ⟨g, owner', hg, hr, hx⟩
      have howner : owner' = owner := by
        have hn := hx.owner
        rw [addNew, node?_add_of_ne (Nat.ne_of_lt (lt_size_of_node? hnode)), hnode] at hn
        exact (Option.some.inj hn).symm
      subst howner
      have hmem : some d ∈ owner'.slots := by
        rw [← mem_childrenOf, ← children_of_node? hnode]
        exact hwf.linked.mp hlink
      have hgwf := hr.wellFormed hwf' hx (exchanged_replaceFirst hmem _) rfl
      refine ⟨g, _, ?_, dropped_of_slot hf hd hr hnode hlink hgwf⟩
      simp only [remove, splice, hparent, hnode, hsplice, Option.bind_some]
      exact hg

end Forest

/-!
## Trees without unused functions
-/

open Bindings

/-- From `s`, some functions have been removed that are never used. -/
structure Pruned (s g : Forest) (root : NodeId) : Prop where
  program : g.HasProgram root
  whole : (ofForest g (some root)).truncated = false
  size_le : s.size ≤ g.size
  text : ∀ {i}, i < s.size → g.identifierText? (some i) = s.identifierText? (some i)
  /-- Names that are left stand for what they stood for, and there are no others. -/
  names : ∀ {i text}, g.Within i root → g.identifierText? (some i) = some text →
    i < s.size ∧ s.Within i root ∧ declarationOf g root i = declarationOf s root i
  once : ∀ {d}, DeclaredOnce s root d → DeclaredOnce g root d
  unused : ∀ {d}, Unused s root d → Unused g root d

namespace Pruned

variable {s g k : Forest} {root d : NodeId} {c : NodeId → NodeId}

theorem refl (hs : s.HasProgram root) (hwhole : (ofForest s (some root)).truncated = false) :
    Pruned s s root := by
  refine ⟨hs, hwhole, Nat.le_refl _, fun _ => rfl, ?_, id, id⟩
  intro i text hi hname
  refine ⟨?_, hi, rfl⟩
  rcases Option.bind_eq_some_iff.mp hname with ⟨n, hn, _⟩
  exact lt_size_of_node? hn

theorem trans (h : Pruned s g root) (h' : Pruned g k root) : Pruned s k root := by
  refine ⟨h'.program, h'.whole, h.size_le.trans h'.size_le, ?_, ?_, h'.once ∘ h.once,
    h'.unused ∘ h.unused⟩
  · intro i hi
    exact (h'.text (Nat.lt_of_lt_of_le hi h.size_le)).trans (h.text hi)
  · intro i text hi hname
    rcases h'.names hi hname with ⟨hlt, hwithin, hdecl⟩
    rw [h'.text hlt] at hname
    rcases h.names hwithin hname with ⟨hlt', hwithin', hdecl'⟩
    exact ⟨hlt', hwithin', hdecl.trans hdecl'⟩

theorem of_dropped (h : Dropped s g root d c) (honce : DeclaredOnce s root d)
    (hunused : Unused s root d) (hwhole : (ofForest s (some root)).truncated = false) :
    Pruned s g root := by
  have htext : ∀ {i}, i < s.size → g.identifierText? (some i) = s.identifierText? (some i) := by
    intro i hi
    rcases h.node (node?_of_lt hi) with ⟨n', hn', hrevision⟩
    rw [identifierText?, hn', identifierText?, node?_of_lt hi]
    exact Revised.identifierText?_of_revision hrevision
  refine ⟨h.after, h.whole hwhole, ?_, htext, ?_, h.declaredOnce honce,
    h.unused honce hunused hwhole⟩
  · by_contra hlt
    obtain ⟨n', hn', _⟩ := h.node (node?_of_lt (Nat.not_le.mp hlt))
    exact Nat.lt_irrefl _ (lt_size_of_node? hn')
  · intro i text hi hname
    have hlt : i < s.size := by
      rcases Option.bind_eq_some_iff.mp hname with ⟨n, hn, htext⟩
      by_contra hge
      obtain rfl := h.new (Nat.not_lt.mp hge) hn
      cases htext
    exact ⟨hlt, h.carried.within h.before.wellFormed hi hlt,
      h.declarationOf_eq honce hunused hwhole hi hlt⟩

end Pruned

/-!
## The last part of the rewrite
-/

namespace Rewrite

variable {s f g : Forest} {root d : NodeId} {b : Bindings}

theorem run_removeUnused :
    (removeUnused b (some root) d).run f =
      ((), if f.isAttached (some d) (some root) &&
          (b.ofDeclaration (some d)).any fun i => (b.references i).isEmpty then
        (f.remove (some d)).1 else f) := by
  unfold removeUnused
  rw [Edit.run_look_bind]
  split
  · rfl
  · rfl

/-- A function is removed when it is in the tree and nothing refers to it. -/
theorem pruned_removeUnused (h : Pruned s f root) (hs : s.HasProgram root)
    (hwhole : (ofForest s (some root)).truncated = false) (honce : DeclaredOnce s root d) :
    Pruned s ((removeUnused (ofForest s (some root)) (some root) d).run f).2 root := by
  rw [run_removeUnused]
  dsimp only
  split
  · rename_i hboth
    rcases Bool.and_eq_true_iff.mp hboth with ⟨hattached, hreferences⟩
    have hunused := unused_of_references hs hwhole hreferences
    rcases (h.once honce).function with ⟨ident, hd⟩
    rcases exists_dropped h.program hd (within_of_isAttached hattached) with
      ⟨g, c, hremove, hdropped⟩
    rw [hremove]
    exact h.trans (.of_dropped hdropped (h.once honce) (h.unused hunused) h.whole)
  · exact h

/-- Removing one function after another keeps what is known of the tree. -/
theorem pruned_removals {declarations : List NodeId} {u : PUnit} (h : Pruned s f root)
    (hs : s.HasProgram root) (hwhole : (ofForest s (some root)).truncated = false)
    (honce : ∀ d ∈ declarations, DeclaredOnce s root d)
    (hrun : (forIn declarations PUnit.unit fun d _ => do
        (removeUnused (ofForest s (some root)) (some root) d : Edit Unit)
        pure (.yield PUnit.unit) : Rewrite PUnit).run.run f = (.ok u, g)) :
    Pruned s g root := by
  induction declarations generalizing f with
  | nil =>
      obtain ⟨_, rfl⟩ := Prod.mk.inj hrun
      exact h
  | cons d declarations ih =>
      rw [List.forall_mem_cons] at honce
      rw [List.forIn_cons, bind_assoc, run_bind_ok (run_lift _ _), pure_bind] at hrun
      exact ih (pruned_removeUnused h hs hwhole honce.1) honce.2 hrun

end Rewrite
end Untangle
