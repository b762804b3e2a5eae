import Untangle.Proofs.Rewrite.Running
import Untangle.Proofs.Rewrite.StatementProxies
import Untangle.Rewrite.DeadCode

/-!
# Dead code that is left alone

A branch is taken out of its `if` statement piece by piece before it takes the place of the
statement. The statement still has its parent then, so that the last step always succeeds.
-/

namespace Untangle

open Forest
open Relation (ReflTransGen)

variable {f g : Forest} {i p root : NodeId} {b : Bindings}

namespace Rewrite

/-!
## Declarations
-/

theorem reports_removeIfUnused (hf : f.WellFormed) (s : Slot) (binding : Binding) :
    Edit.Reports id (removeIfUnused b s binding) f := by
  unfold removeIfUnused
  split
  · exact Edit.reports_false
  · apply Edit.reports_look
    split
    · exact Edit.reports_false
    · split
      · apply Edit.reports_look
        split
        · exact Edit.reports_removeDeclarator _
        · exact Edit.reports_false
      · split
        · apply Edit.reports_look
          split
          · exact Edit.reports_remove hf _
          · exact Edit.reports_false
        · exact Edit.reports_false

/-!
## Branches
-/

theorem node_of_knownBranches? {taken dropped : Slot}
    (h : knownBranches? b (some root) i f = some (taken, dropped)) :
    f.Within i root ∧ ∃ condition whenTrue whenFalse,
      f.node? (some i) = some (.conditionalStatement condition whenTrue whenFalse) ∧
        (taken = whenTrue ∨ taken = whenFalse) := by
  unfold knownBranches? at h
  rcases Option.bind_eq_some_iff.mp h with ⟨_, hattached, h⟩
  constructor
  · exact within_of_isAttached ((Option.guard_eq_some' _).mp hattached)
  · split at h
    · rename_i condition whenTrue whenFalse hn
      rcases Option.bind_eq_some_iff.mp h with ⟨value, _, h⟩
      refine ⟨condition, whenTrue, whenFalse, hn, ?_⟩
      cases value with
      | true => exact .inl (Prod.mk.inj (Option.some.inj h)).1.symm
      | false => exact .inr (Prod.mk.inj (Option.some.inj h)).1.symm
    · cases h

/-- Different statements that lie below a node. -/
structure StatementsBelow (f : Forest) (i : NodeId) (statements : List Slot) : Prop where
  nodup : statements.Nodup
  below : ∀ s ∈ statements, ∃ c q, s = some c ∧ f.Link c q ∧ f.Within q i

/-- The statements of a branch are the branch itself or what its block consists of. -/
theorem statementsBelow_branchStatements {t : NodeId} (hf : f.WellFormed) (ht : f.Link t i) :
    StatementsBelow f i (branchStatements f (some t)) := by
  have hwhole : StatementsBelow f i [some t] := by
    constructor
    · exact List.nodup_singleton _
    · intro s hs
      exact ⟨t, i, List.mem_singleton.mp hs, ht, .refl⟩
  unfold branchStatements
  split
  · rename_i statements hn
    split
    · exact hwhole
    · have hfull : none ∉ statements := hf.full hn statements rfl
      have hchildren := hf.nodup t
      rw [children_of_node? hn] at hchildren
      constructor
      · apply (List.pairwise_filterMap.mp hchildren).imp_of_mem
        rintro s s' hs _ hne rfl
        cases s with
        | none => exact hfull hs
        | some c => exact hne c rfl c rfl rfl
      · intro s hs
        cases s with
        | none => exact absurd hs hfull
        | some c => exact ⟨c, t, rfl, hf.link_of_slot hn hs, .single ht⟩
  · exact hwhole

theorem StatementsBelow.not_mem {statements : List Slot} (h : StatementsBelow f i statements)
    (hf : f.WellFormed) : some i ∉ statements := by
  intro hmem
  rcases h.below _ hmem with ⟨_, q, ⟨⟩, hq, hwithin⟩
  exact hf.not_within_of_link hq hwithin

/-- `g` is `f` after some statements were taken out. -/
structure Detached (f g : Forest) (statements : List Slot) : Prop where
  wellFormed : g.WellFormed
  size : g.size = f.size
  link : ∀ a q, g.Link a q ↔ some a ∉ statements ∧ f.Link a q

/-- Statements are taken out one after another. -/
theorem run_detachAll {statements : List Slot} (hf : f.WellFormed) (hnodup : statements.Nodup)
    (hlinks : ∀ s ∈ statements, ∃ c q, s = some c ∧ f.Link c q) :
    ∃ g, (forIn statements PUnit.unit fun s _ => do
        let _ ← Edit.detach s
        pure (.yield PUnit.unit) : Edit PUnit).run f = (PUnit.unit, g) ∧
      Detached f g statements := by
  induction statements generalizing f with
  | nil => exact ⟨f, rfl, hf, rfl, by simp⟩
  | cons s statements ih =>
      rw [List.forall_mem_cons] at hlinks
      rw [List.nodup_cons] at hnodup
      rcases hlinks.1 with ⟨c, p, rfl, hlink⟩
      rcases detach_of_link hf hlink with ⟨f', hdetach, hx⟩
      have hrest : ∀ s ∈ statements, ∃ c' q, s = some c' ∧ f'.Link c' q := by
        intro s hs
        rcases hlinks.2 s hs with ⟨c', q, rfl, hlink'⟩
        have hne : c' ≠ c := by
          rintro rfl
          exact hnodup.1 hs
        exact ⟨c', q, rfl, hx.link_detached.mpr ⟨hne, hlink'⟩⟩
      rcases ih (hx.wellFormed hf) hnodup.2 hrest with ⟨g, hrun, hd⟩
      have hfirst : (Edit.detach (some c)).run f = (true, f') := congrArg Prod.swap hdetach
      exists g
      constructor
      · rw [List.forIn_cons, Edit.run_bind, Edit.run_bind, hfirst]
        exact hrun
      · constructor
        · exact hd.wellFormed
        · rw [hd.size, hx.size]
        · intro a q
          rw [hd.link, hx.link_detached, List.mem_cons, not_or, Option.some_inj, and_left_comm,
            and_assoc]

/-- What was taken out from below a node may take its place. -/
theorem Detached.replacements {statements : List Slot} (h : Detached f g statements)
    (hf : f.WellFormed) (hbelow : StatementsBelow f i statements) :
    g.Replacements (some i) statements := by
  constructor
  · exact hbelow.nodup
  · intro s hs
    rcases hbelow.below s hs with ⟨c, q, rfl, hq, _⟩
    refine ⟨c, rfl, h.size ▸ lt_size_of_parent hq, ?_⟩
    cases hparent : g.parent (some c) with
    | none => rfl
    | some q' => exact absurd hs ((h.link c q').mp hparent).1
  · rintro _ c ⟨⟩ hc hpath
    rcases hbelow.below _ hc with ⟨_, q, ⟨⟩, hq, hwithin⟩
    apply hf.not_within_of_link hq
    have hpath' : f.Within i c :=
      ReflTransGen.mono (fun a q hab => ((h.link a q).mp hab).2) _ _ hpath
    exact hwithin.trans hpath'

/-- A statement that has a parent makes way for what its branch consists of. -/
theorem reports_replaceByBranch {branch : Slot} (hf : f.WellFormed) (hlink : f.Link i p)
    (hbranch : ∀ t, branch = some t → f.Link t i) :
    Edit.Reports id (replaceByBranch (some i) branch) f := by
  unfold replaceByBranch
  cases branch with
  | none => exact Edit.reports_remove hf _
  | some t =>
      apply Edit.reports_of_true
      have hbelow := statementsBelow_branchStatements hf (hbranch t rfl)
      have hlinks : ∀ s ∈ branchStatements f (some t), ∃ c q, s = some c ∧ f.Link c q := by
        intro s hs
        rcases hbelow.below s hs with ⟨c, q, rfl, hq, _⟩
        exact ⟨c, q, rfl, hq⟩
      rcases run_detachAll hf hbelow.nodup hlinks with ⟨g, hrun, hd⟩
      rw [if_neg (by simp), Edit.run_look_bind, Edit.run_bind, hrun]
      have hlink' : g.Link i p := (hd.link i p).mpr ⟨hbelow.not_mem hf, hlink⟩
      rcases splice_of_link hd.wellFormed hlink' (hd.replacements hf hbelow) with ⟨h, hh, _⟩
      exact congrArg Prod.snd hh

theorem reports_pruneBranch (hf : f.HasProgram root) (i : NodeId) :
    Edit.Reports id (pruneBranch b (some root) i) f := by
  apply Edit.reports_get
  split
  · rename_i taken dropped hknown
    split
    · exact Edit.reports_false
    · rcases node_of_knownBranches? hknown with ⟨hwithin, _, whenTrue, whenFalse, hn, htaken⟩
      rcases hf.exists_link hwithin hn nofun with ⟨p, hp⟩
      apply reports_replaceByBranch hf.wellFormed hp
      rintro t rfl
      apply hf.wellFormed.link_of_slot hn
      rcases htaken with rfl | rfl
      · simp [Node.slots]
      · simp [Node.slots]
  · exact Edit.reports_false

theorem removeDeadCode_unchanged (hf : f.HasProgram root)
    (hrun : (removeDeadCode (some root)).run.run f = (.ok false, g)) : g = f := by
  rcases run_bind_eq_ok.mp hrun with ⟨b, f', hbind, hrest⟩
  obtain ⟨rfl, -, -⟩ := run_bind_tree hbind
  rw [run_bind_ok (run_lift _ _), run_bind_ok (run_get _), run_bind_ok (run_lift _ _)] at hrest
  obtain ⟨hanswer, hforest⟩ := Prod.mk.inj hrest
  obtain ⟨hremoved, hpruned⟩ := Bool.or_eq_false_iff.mp (Except.ok.inj hanswer)
  have hdeclarations :
      ((Edit.changeAll (removeIfUnused b (some root)) b.bindings.toList).run f').2 = f' :=
    Edit.reports_changeAll_id (fun binding _ => reports_removeIfUnused hf.wellFormed _ binding)
      hremoved
  rw [hdeclarations] at hpruned hforest
  have hbranches : Edit.Reports id
      (Edit.changeAll (pruneBranch b (some root)) (f'.preorder (some root))) f' :=
    Edit.reports_changeAll_id fun i _ => reports_pruneBranch hf i
  exact hforest.symm.trans (hbranches hpruned)

end Rewrite
end Untangle
