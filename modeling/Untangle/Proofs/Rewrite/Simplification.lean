import Untangle.Proofs.Grammar.Chains
import Untangle.Proofs.Grammar.LayeredPrograms
import Untangle.Proofs.Rewrite.Folding
import Untangle.Proofs.Rewrite.Unchanged

/-!
# Simplified expressions

Simplifying keeps every value that is known, and what it puts in the place of an operation has the
value of the operation. What is left over are operations whose evaluation was given up because it
went too deep: when their operands are folded they may come within reach, and a second run folds
them.
-/

namespace Untangle

open Forest Bindings Rewrite
open Relation (ReflTransGen)

variable {f g : Forest} {root i j : NodeId} {c : NodeId → NodeId}

/-!
## Numbers
-/

theorem run_normalizeNumber (g : Forest) (i : NodeId) :
    g.DecimalAt i ∧ (normalizeNumber i).run g = (false, g) ∨
      ¬ g.DecimalAt i ∧ ∃ x raw, g.node? (some i) = some (.number x (some raw)) ∧
        (normalizeNumber i).run g = (true, g.setNode i (.number x none)) := by
  rw [normalizeNumber, Edit.run_look_bind]
  split
  · rename_i x raw hn
    cases hradix : isRadixNumeral raw with
    | true =>
        refine .inr ⟨fun hdecimal => ?_, x, raw, hn, rfl⟩
        cases hradix.symm.trans (hdecimal x raw hn)
    | false =>
        refine .inl ⟨fun y raw' hn' => ?_, rfl⟩
        obtain ⟨_, hraw⟩ := Node.number.inj (Option.some.inj (hn'.symm.trans hn))
        rw [Option.some.inj hraw, hradix]
  · rename_i hnot
    exact .inl ⟨fun x raw hn => absurd hn (hnot x raw), rfl⟩

/-- Numbers written in another radix become decimal, and nothing else happens. -/
theorem run_changeAll_normalizeNumber (sites : List NodeId) (hr : f.Respelled g) :
    f.Respelled ((Edit.changeAll normalizeNumber sites).run g).2 ∧
      (∀ i, i ∈ sites ∨ g.DecimalAt i →
        ((Edit.changeAll normalizeNumber sites).run g).2.DecimalAt i) ∧
      (((Edit.changeAll normalizeNumber sites).run g).1 = true →
        ∃ i ∈ sites, ¬ g.DecimalAt i) := by
  induction sites generalizing g with
  | nil => exact ⟨hr, fun i hi => hi.resolve_left List.not_mem_nil, nofun⟩
  | cons a sites ih =>
      rw [Edit.run_changeAll_cons]
      rcases run_normalizeNumber g a with ⟨hdecimal, hrun⟩ | ⟨hnot, x, raw, hn, hrun⟩
      · obtain ⟨hspelled, hkept, hchanged⟩ := ih hr
        rw [hrun]
        refine ⟨hspelled, fun i hi => ?_, fun hhit => ?_⟩
        · rcases hi with hi | hi
          · rcases List.mem_cons.mp hi with rfl | hi
            · exact hkept i (.inr hdecimal)
            · exact hkept i (.inl hi)
          · exact hkept i (.inr hi)
        · rcases hchanged hhit with ⟨i, hi, hnot⟩
          exact ⟨i, List.mem_cons_of_mem _ hi, hnot⟩
      · obtain ⟨hspelled, hkept, _⟩ := ih (hr.setNode hn none)
        have hself : (g.setNode a (.number x none)).DecimalAt a := by
          intro y raw' hn'
          rw [node?_setNode_self (lt_size_of_node? hn)] at hn'
          simp at hn'
        have hother : ∀ i, i ≠ a → g.DecimalAt i →
            (g.setNode a (.number x none)).DecimalAt i := by
          intro i hi hdecimal y raw' hn'
          exact hdecimal y raw' ((node?_setNode_of_ne hi).symm.trans hn')
        rw [hrun]
        refine ⟨hspelled, fun i hi => ?_, fun _ => ⟨a, List.mem_cons_self, hnot⟩⟩
        by_cases hia : i = a
        · exact hkept i (.inr (hia ▸ hself))
        · exact hkept i (hi.imp (fun hi => (List.mem_cons.mp hi).resolve_left hia) (hother i hia))

/-!
## Whole runs
-/

/-- What is left over by simplifying a program, and what was there if anything was changed. -/
structure Simplified (f g : Forest) (root : NodeId) (c : NodeId → NodeId) (changed : Bool) :
    Prop where
  folded : Folded f g root c
  exhausted : Exhausted f root c (f.Within · root)
  changed : changed = true → ∃ i, f.Within i root ∧
    (¬ f.DecimalAt i ∨ (f.literalValue? root i).isSome = true)

theorem run_simplifyExpressions (hroot : f.contains (some root) = true)
    (hwhole : (ofForest f (some root)).truncated = false) {numbers folded : Bool × Forest}
    (hnumbers : (Edit.changeAll normalizeNumber (f.preorder (some root))).run f = numbers)
    (hfolded : (foldWithin (ofForest f (some root)) numbers.2.size root).run numbers.2 = folded) :
    (simplifyExpressions (some root)).run.run f = (.ok (numbers.1 || folded.1), folded.2) := by
  have hsingle : (Edit.changeAll (foldWithin (ofForest f (some root)) numbers.2.size)
      (some root).toList).run numbers.2 = folded := by
    rw [Option.toList_some, Edit.run_changeAll_cons, hfolded]
    exact Prod.ext (Bool.or_false _) rfl
  rw [simplifyExpressions, run_bind_ok (run_bind_of_whole hroot hwhole), run_bind_ok (run_get f)]
  dsimp only
  rw [run_bind_ok (run_lift _ _), hnumbers, run_bind_ok (run_get _), run_bind_ok (run_lift _ _),
    hsingle]
  rfl

/-- A program that can be bound as a whole is simplified. -/
theorem exists_simplified (hf : f.HasProgram root)
    (hwhole : (ofForest f (some root)).truncated = false) :
    ∃ changed g c, (simplifyExpressions (some root)).run.run f = (.ok changed, g) ∧
      Simplified f g root c changed := by
  have hroot : root < f.size := by
    rcases hf.node with ⟨statements, hn⟩
    exact lt_size_of_node? hn
  obtain ⟨hspelled, hdecimal, hradix⟩ :=
    run_changeAll_normalizeNumber (f.preorder (some root)) (.refl f)
  generalize hnumbers : (Edit.changeAll normalizeNumber (f.preorder (some root))).run f = numbers
    at hspelled hdecimal hradix
  have hstart : Folded f numbers.2 root id := by
    refine ⟨hspelled.substituted hf, fun hne => absurd rfl hne, fun {i} hi => ?_⟩
    exact hdecimal i (.inl ((hf.wellFormed.mem_preorder hroot).mpr (hspelled.alike.within.mp hi)))
  rcases run_foldWithin numbers.2.size hstart
    ⟨.refl, fun _ _ => rfl, fun _ _ => rfl⟩ with ⟨c, hfolds, hexhausted⟩
  generalize hfolded : (foldWithin (ofForest f (some root)) numbers.2.size root).run numbers.2 =
    folded at hfolds
  refine ⟨_, _, c, run_simplifyExpressions ((cell?_isSome ..).mpr hroot) hwhole hnumbers hfolded,
    hfolds.folded, ?_, fun hchanged => ?_⟩
  · have hsize : f.size ≤ numbers.2.size := (hspelled.substituted hf).size_le
    exact hexhausted ((f.weight_le_size root).trans hsize)
  · rcases (Bool.or_eq_true _ _).mp hchanged with hhit | hhit
    · rcases hradix hhit with ⟨i, hi, hnot⟩
      exact ⟨i, (hf.wellFormed.mem_preorder hroot).mp hi, .inl hnot⟩
    · rcases hfolds.changed hhit with ⟨i, hi, hvalue⟩
      exact ⟨i, hi, .inr hvalue⟩

theorem simplified_of_run (hf : f.HasProgram root) {changed : Bool}
    (hrun : (simplifyExpressions (some root)).run.run f = (.ok changed, g)) :
    (ofForest f (some root)).truncated = false ∧ ∃ c, Simplified f g root c changed := by
  rcases run_bind_eq_ok.mp hrun with ⟨b, f', hbind, _⟩
  obtain ⟨-, -, hwhole⟩ := run_bind_tree hbind
  rcases exists_simplified hf hwhole with ⟨changed', g', c, hrun', hsimplified⟩
  obtain ⟨hanswer, rfl⟩ := Prod.mk.inj (hrun.symm.trans hrun')
  obtain rfl := Except.ok.inj hanswer
  exact ⟨hwhole, c, hsimplified⟩

/-- Nothing is renamed by a run that changes nothing. -/
theorem Simplified.eq_of_unchanged (h : Simplified f f root c false) : c i = i := by
  by_contra hne
  have hlt : c i < f.size := by
    cases h.folded.constant hne with
    | literal hn _ => exact lt_size_of_node? hn
    | signed hn _ _ => exact lt_size_of_node? hn
  exact Nat.not_lt.mpr (h.folded.fresh hne) hlt

/-- A run changes something exactly if there is a number that is not decimal or an operation whose
value has a literal. -/
theorem run_simplifyExpressions_changed_iff (hf : f.HasProgram root)
    (hwhole : (ofForest f (some root)).truncated = false) :
    ∃ changed g, (simplifyExpressions (some root)).run.run f = (.ok changed, g) ∧
      (changed = true ↔ ∃ i, f.Within i root ∧
        (¬ f.DecimalAt i ∨ (f.literalValue? root i).isSome = true)) := by
  rcases exists_simplified hf hwhole with ⟨changed, g, c, hrun, hsimplified⟩
  refine ⟨changed, g, hrun, hsimplified.changed, ?_⟩
  rintro ⟨i, hi, hsite⟩
  cases changed with
  | true => rfl
  | false =>
      -- A run that changes nothing would have left no such node behind.
      obtain rfl := simplifyExpressions_unchanged hf hrun
      rcases hsite with hnot | hvalue
      · exact absurd (hsimplified.folded.decimal hi) hnot
      · rw [hsimplified.exhausted hi fun a _ => hsimplified.eq_of_unchanged] at hvalue
        cases hvalue

/-- When all numbers are decimal, a run changes nothing exactly if no operation has a value with a
literal. -/
theorem run_simplifyExpressions_iff (hf : f.HasProgram root)
    (hwhole : (ofForest f (some root)).truncated = false)
    (hdecimal : ∀ i, f.Within i root → f.DecimalAt i) :
    ∃ changed g, (simplifyExpressions (some root)).run.run f = (.ok changed, g) ∧
      (changed = false ↔ ∀ i, f.Within i root → f.literalValue? root i = none) := by
  rcases run_simplifyExpressions_changed_iff hf hwhole with ⟨changed, g, hrun, hiff⟩
  refine ⟨changed, g, hrun, ?_⟩
  rw [← Bool.not_eq_true, hiff, not_exists]
  refine forall_congr' fun i => ?_
  rw [not_and]
  refine forall_congr' fun hi => ?_
  rw [or_iff_right (not_not_intro (hdecimal i hi)), Bool.not_eq_true, Option.isSome_eq_false_iff,
    Option.isNone_iff_eq_none]

/-!
## Operations that are out of reach

The last operator of a long run is out of reach of the evaluation at first. When its left operand
has been folded it is not.
-/

namespace Forest.Chain

variable {e : NodeId} {n depth : Nat}

/-- Each operator takes one more level of the evaluation. -/
theorem valueWithin? (h : f.Chain n e) (b : Bindings) (depth : Nat) :
    b.valueWithin? f depth (some e) = if n < depth then some .null else none := by
  induction h generalizing depth with
  | null hi =>
      cases depth with
      | zero => rfl
      | succ depth => rw [Bindings.valueWithin?, hi, if_pos (Nat.succ_pos depth)]; rfl
  | @and n i left right hi _ _ ih =>
      cases depth with
      | zero => rfl
      | succ depth =>
          rw [Bindings.valueWithin?, hi, Option.bind_some, nodeValue?, ih]
          split <;> rename_i hlt
          · rw [if_pos (Nat.succ_lt_succ hlt)]
            rfl
          · rw [if_neg (fun hlt' => hlt (Nat.lt_of_succ_lt_succ hlt'))]
            rfl

theorem outline (h : f.Chain n e) (hdepth : n < depth) :
    (Sketch.ofDepth f depth).node (some e) = .done := by
  induction h generalizing depth with
  | null hi =>
      obtain ⟨depth, rfl⟩ := Nat.exists_eq_add_one_of_ne_zero (Nat.ne_zero_of_lt hdepth)
      exact Sketch.node_of_isLiteral hi rfl depth
  | @and n i left right hi _ hright ih =>
      obtain ⟨depth, rfl⟩ := Nat.exists_eq_add_one_of_ne_zero (Nat.ne_zero_of_lt hdepth)
      have hlt := Nat.lt_of_succ_lt_succ hdepth
      obtain ⟨depth, rfl⟩ := Nat.exists_eq_add_one_of_ne_zero (Nat.ne_zero_of_lt hlt)
      have hparts : (Sketch.ofDepth f (depth + 2)).node (some i) =
          (Sketch.ofDepth f (depth + 1)).node (some left) ++
            ((Sketch.ofDepth f (depth + 1)).node (some right) ++ .done) := by
        rw [Sketch.ofDepth_node hi]
        rfl
      rw [hparts, ih hlt, Sketch.node_of_isLiteral hright rfl]
      rfl

theorem cut_not_mem_itinerary {opened : NodeId → Option ScopeId} {o : Outlook} (h : f.Chain n e)
    (hdepth : n < depth) : .cut ∉ f.itinerary opened depth (.value .read) o (some e) := by
  induction h generalizing depth o with
  | null hi =>
      obtain ⟨depth, rfl⟩ := Nat.exists_eq_add_one_of_ne_zero (Nat.ne_zero_of_lt hdepth)
      exact itinerary_of_isLiteral hi rfl .read
  | @and n i left right hi _ hright ih =>
      obtain ⟨depth, rfl⟩ := Nat.exists_eq_add_one_of_ne_zero (Nat.ne_zero_of_lt hdepth)
      have hlt := Nat.lt_of_succ_lt_succ hdepth
      obtain ⟨depth, rfl⟩ := Nat.exists_eq_add_one_of_ne_zero (Nat.ne_zero_of_lt hlt)
      rw [itinerary_here hi rfl]
      intro hcut
      rcases List.mem_append.mp hcut with hcut | hcut
      · exact cut_not_mem_stops _ hcut
      · obtain ⟨errand, herrand, hcut⟩ := List.mem_flatMap.mp hcut
        rcases List.mem_pair.mp herrand with rfl | rfl
        · exact ih hlt hcut
        · exact itinerary_of_isLiteral hright rfl .read hcut

end Forest.Chain

/-- The tree of a program that consists of one run. -/
theorem Descent.MakesChain.whole {n : Nat} (h : Descent.MakesChain n f i)
    (hroot : f.node? (some root) = some (.body .program [some i]))
    (hn : n + 1 < Limits.treeDepth) : (ofForest f (some root)).truncated = false := by
  rcases h with ⟨e, hi, he⟩
  obtain ⟨depth, hdepth⟩ := Nat.exists_eq_add_of_lt hn
  have hlt : n < n + depth + 1 := by omega
  have hdeep : Limits.treeDepth + 1 = n + depth + 1 + 2 := by omega
  refine truncated_ofForest.mpr ⟨?_, fun hcut => ?_⟩
  · have hstatement : (Sketch.ofDepth f (n + depth + 2)).node (some i) = .done := by
      rw [Sketch.ofDepth_node hi]
      change Outline.concat [(Sketch.ofDepth f (n + depth + 1)).node (some e)] = _
      rw [he.outline hlt]
      rfl
    rw [Bindings.outline, hdeep, Sketch.ofDepth_node hroot]
    change (Outline.concat [(Sketch.ofDepth f (n + depth + 2)).node (some i)]).Whole
    rw [hstatement]
    trivial
  · rw [route, hdeep, itinerary_here hroot rfl] at hcut
    rcases List.mem_append.mp hcut with hcut | hcut
    · exact cut_not_mem_stops _ hcut
    obtain ⟨errand, herrand, hcut⟩ := List.mem_flatMap.mp hcut
    obtain rfl := List.mem_singleton.mp herrand
    change _ ∈ f.itinerary _ _ (.value .read) _ (some i) at hcut
    rw [itinerary_here hi rfl] at hcut
    rcases List.mem_append.mp hcut with hcut | hcut
    · exact cut_not_mem_stops _ hcut
    obtain ⟨errand, herrand, hcut⟩ := List.mem_flatMap.mp hcut
    obtain rfl := List.mem_singleton.mp herrand
    exact he.cut_not_mem_itinerary hlt hcut

/-- The left operand of the last operator is folded, and then the operator could be. -/
theorem Simplified.evaluate_chain {changed : Bool} {e : NodeId}
    (h : Simplified f g root c changed)
    (hroot : f.node? (some root) = some (.body .program [some i]))
    (hi : f.node? (some i) = some (.operand .expressionStatement (some e)))
    (he : f.Chain (Limits.evaluationDepth + 1) e) :
    (∃ a, c a ≠ a) ∧ g.Within e root ∧ g.satisfies (some e) isOperation = true ∧
      (ofForest g (some root)).evaluate g (some e) = some .null := by
  have hc := h.folded
  have hother : ∀ {a n}, f.node? (some a) = some n → isOperation n = false → c a = a := by
    intro a n ha hn
    refine hc.eq_of_literalValue? ?_
    rw [literalValue?, operationValue?, satisfies, ha, Option.any_some, hn]
    rfl
  have hlast : c e = e := by
    refine hc.eq_of_literalValue? ?_
    rw [literalValue?, operationValue?, evaluate, he.valueWithin?, if_neg (Nat.lt_irrefl _), ite_self]
    rfl
  cases he with
  | @and n _ left right he hleft hright =>
    rcases hc.node hroot with ⟨_, hroot', hroot''⟩
    rcases hc.node hi with ⟨_, hi', hi''⟩
    rcases hc.node he with ⟨_, he', he''⟩
    have hstatement := hc.within_child .refl hroot' hroot'' (List.mem_singleton_self _)
    rw [hother hi rfl] at hstatement
    have hwithin := hc.within_child hstatement hi' hi'' (List.mem_singleton_self _)
    rw [hlast] at hwithin
    have hfoldable : f.literalValue? root left = some .null := by
      refine literalValue?_eq_some_iff.mpr ⟨?_, ?_, rfl⟩
      · cases hleft with
        | and hleft _ _ => rw [satisfies, hleft]; rfl
      · rw [evaluate, hleft.valueWithin?, if_pos (Nat.lt_succ_self _)]
    have hlt : left < f.size :=
      lt_size_of_parent (hc.before.wellFormed.link_of_slot he List.mem_cons_self)
    have hmoved : c left ≠ left := by
      intro heq
      have hleft' := hc.within_child hwithin he' he'' List.mem_cons_self
      rw [heq] at hleft'
      obtain ⟨hbefore, hunmoved⟩ := (hc.within_iff_unmoved hlt).mp hleft'
      cases hfoldable.symm.trans (h.exhausted hbefore hunmoved)
    rcases hc.value hmoved with ⟨v, hv, hyields⟩
    obtain rfl := Option.some.inj (hfoldable.symm.trans hv)
    refine ⟨⟨left, hmoved⟩, hwithin, ?_, ?_⟩
    · rw [hc.satisfies_isOperation (lt_size_of_node? he), satisfies, he]
      rfl
    · have hoperand : (ofForest g (some root)).valueWithin? g Limits.evaluationDepth
          (some (c left)) = some .null := valueWithin?_mono (by decide) (hyields _)
      rw [evaluate, Bindings.valueWithin?, he', Option.bind_some, he''.nodeValue?_eq,
        nodeValue?_map, nodeValue?, Function.comp_apply, Option.map_some, hoperand]
      rfl

/-- The shortest run that is not folded all at once. -/
def Chain.tooLong : String :=
  Chain.text (Limits.evaluationDepth + 1)

theorem exists_run_chain : ∃ p g e, Program.parse Chain.tooLong = .ok p ∧
    (simplifyExpressions (some p.root)).run.run p.forest = (.ok true, g) ∧
      g.Within e p.root ∧ g.satisfies (some e) isOperation = true ∧
        (ofForest g (some p.root)).evaluate g (some e) = some .null := by
  rcases Program.exists_parse_chain (n := Limits.evaluationDepth + 1) (by decide) with
    ⟨p, i, hparse, hroot, hchain⟩
  have hf := Program.hasProgram_parse hparse
  rcases exists_simplified hf (hchain.whole hroot (by decide)) with
    ⟨changed, g, c, hrun, hsimplified⟩
  rcases hchain with ⟨e, hi, he⟩
  obtain ⟨⟨a, hmoved⟩, hleft⟩ := hsimplified.evaluate_chain hroot hi he
  refine ⟨p, g, e, hparse, ?_, hleft⟩
  cases changed with
  | true => exact hrun
  | false =>
      obtain rfl := simplifyExpressions_unchanged hf hrun
      exact absurd hsimplified.eq_of_unchanged hmoved

/-!
## Values
-/

/-- What was known of an expression that is still there is known of it afterwards, and everything
that is new in the tree is part of a literal that has the value of the operation in whose place it
stands. -/
theorem simplifyExpressions_preserves_values {source : String} {p : Program} {changed : Bool}
    (hparse : Program.parse source = .ok p)
    (hrun : (simplifyExpressions (some p.root)).run.run p.forest = (.ok changed, g)) :
    (∀ i v, p.forest.Within i p.root → g.Within i p.root →
      (ofForest p.forest (some p.root)).evaluate p.forest (some i) = some v →
        (ofForest g (some p.root)).evaluate g (some i) = some v) ∧
    ∃ c : NodeId → NodeId,
      (∀ i n, p.forest.node? (some i) = some n →
        ∃ n', g.node? (some i) = some n' ∧ n'.Respells (n.map (Option.map c))) ∧
      (∀ i, c i ≠ i → p.forest.size ≤ c i ∧ g.Constant (c i) ∧
        p.forest.satisfies (some i) isOperation = true ∧
        ∃ v, (ofForest p.forest (some p.root)).evaluate p.forest (some i) = some v ∧
          (ofForest g (some p.root)).evaluate g (some (c i)) = some v) ∧
      ∀ k, g.Within k p.root → p.forest.size ≤ k → ∃ i, c i ≠ i ∧ g.Within k (c i) := by
  have hf := Program.hasProgram_parse hparse
  rcases simplified_of_run hf hrun with ⟨hwhole, c, hsimplified⟩
  have hc := hsimplified.folded
  refine ⟨fun i v _ hi hv => ?_, c, fun i n hn => hc.node hn, fun i hi => ?_, fun k hk hnew => ?_⟩
  · exact hc.valued.evaluate_after (Program.tiered_parse hparse) hwhole hi hv
  · rcases hc.value hi with ⟨v, hv, hyields⟩
    obtain ⟨hoperation, hevaluate, _⟩ := literalValue?_eq_some_iff.mp hv
    exact ⟨hc.fresh hi, hc.constant hi, hoperation, v, hevaluate,
      valueWithin?_mono (by decide) (hyields _)⟩
  · exact hc.within_constant hk hnew

/-- A program that consists of one operation, and the operation is folded. -/
theorem simplifyExpressions_preserves_values_null : ∃ p changed g,
    Program.parse "null && null" = .ok p ∧
      (simplifyExpressions (some p.root)).run.run p.forest = (.ok changed, g) ∧
        ∀ i v, p.forest.Within i p.root → g.Within i p.root →
          (ofForest p.forest (some p.root)).evaluate p.forest (some i) = some v →
            (ofForest g (some p.root)).evaluate g (some i) = some v := by
  rcases Program.exists_parse_chain (n := 1) (by decide) with ⟨p, i, hparse, hroot, hchain⟩
  rcases exists_simplified (Program.hasProgram_parse hparse) (hchain.whole hroot (by decide)) with
    ⟨changed, g, c, hrun, -⟩
  exact ⟨p, changed, g, hparse, hrun, (simplifyExpressions_preserves_values hparse hrun).1⟩

/-- An operation that could still be folded is one whose evaluation went too deep before, and
another run is needed exactly when there is such an operation. -/
theorem simplifyExpressions_leaves_deep {source : String} {p : Program} {changed : Bool}
    (hparse : Program.parse source = .ok p)
    (hrun : (simplifyExpressions (some p.root)).run.run p.forest = (.ok changed, g)) :
    (∀ i v, g.Within i p.root → g.satisfies (some i) isOperation = true →
      (ofForest g (some p.root)).evaluate g (some i) = some v → v.hasLiteral = true →
        (ofForest p.forest (some p.root)).evaluate p.forest (some i) = none ∧
          ∃ d, (ofForest p.forest (some p.root)).valueWithin? p.forest d (some i) = some v) ∧
    ∃ again g', (simplifyExpressions (some p.root)).run.run g = (.ok again, g') ∧
      (again = false ↔ ∀ i v, g.Within i p.root → g.satisfies (some i) isOperation = true →
        (ofForest g (some p.root)).evaluate g (some i) = some v → v.hasLiteral = false) := by
  have hf := Program.hasProgram_parse hparse
  have htiered := Program.tiered_parse hparse
  rcases simplified_of_run hf hrun with ⟨hwhole, c, hsimplified⟩
  have hc := hsimplified.folded
  constructor
  · intro i v hi hoperation hv hliteral
    have hlt := hc.lt_size_of_isOperation hi hoperation
    obtain ⟨hbefore, hunmoved⟩ := (hc.within_iff_unmoved hlt).mp hi
    refine ⟨?_, hc.valued.evaluate_before htiered hwhole hi hlt hv⟩
    cases hw : (ofForest p.forest (some p.root)).evaluate p.forest (some i) with
    | none => rfl
    | some w =>
        -- A value that was known would have been the same, and the operation would be folded.
        have hw' := hc.valued.evaluate_after htiered hwhole hi hw
        obtain rfl := Option.some.inj (hv.symm.trans hw')
        rw [hc.satisfies_isOperation hlt] at hoperation
        have hfoldable := literalValue?_eq_some_iff.mpr ⟨hoperation, hw, hliteral⟩
        cases hfoldable.symm.trans (hsimplified.exhausted hbefore hunmoved)
  · have hwhole' := hc.whole htiered hwhole
    rcases run_simplifyExpressions_iff hc.after hwhole' fun i hi => hc.decimal hi with
      ⟨again, g', hrun', hagain⟩
    refine ⟨again, g', hrun', hagain.trans ⟨fun hnone i v hi hoperation hv => ?_, ?_⟩⟩
    · cases hliteral : v.hasLiteral with
      | false => rfl
      | true =>
          have hfoldable := literalValue?_eq_some_iff.mpr ⟨hoperation, hv, hliteral⟩
          cases hfoldable.symm.trans (hnone i hi)
    · intro hleft i hi
      cases hv : g.literalValue? p.root i with
      | none => rfl
      | some v =>
          obtain ⟨hoperation, hevaluate, hliteral⟩ := literalValue?_eq_some_iff.mp hv
          cases hliteral.symm.trans (hleft i v hi hoperation hevaluate)

/-- The operation is the last one of a run of five hundred and two operands. -/
theorem simplifyExpressions_leaves_deep_chain : ∃ p g i v,
    Program.parse Chain.tooLong = .ok p ∧
      (simplifyExpressions (some p.root)).run.run p.forest = (.ok true, g) ∧
        (ofForest g (some p.root)).evaluate g (some i) = some v ∧
          (ofForest p.forest (some p.root)).evaluate p.forest (some i) = none ∧
            ∃ d, (ofForest p.forest (some p.root)).valueWithin? p.forest d (some i) = some v := by
  rcases exists_run_chain with ⟨p, g, e, hparse, hrun, hwithin, hoperation, hvalue⟩
  exact ⟨p, g, e, .null, hparse, hrun, hvalue,
    (simplifyExpressions_leaves_deep hparse hrun).1 e .null hwithin hoperation hvalue rfl⟩

/-- There is a program for which one run leaves an operation that has a value with a literal, so
that a second run changes it again. -/
theorem simplifyExpressions_folds_again : ∃ p g, Program.parse Chain.tooLong = .ok p ∧
    (simplifyExpressions (some p.root)).run.run p.forest = (.ok true, g) ∧
      (∃ i v, g.Within i p.root ∧ g.satisfies (some i) isOperation = true ∧
        (ofForest g (some p.root)).evaluate g (some i) = some v ∧ v.hasLiteral = true) ∧
      ∃ g', (simplifyExpressions (some p.root)).run.run g = (.ok true, g') := by
  rcases exists_run_chain with ⟨p, g, e, hparse, hrun, hwithin, hoperation, hvalue⟩
  refine ⟨p, g, hparse, hrun, ⟨e, .null, hwithin, hoperation, hvalue, rfl⟩, ?_⟩
  obtain ⟨hwhole, c, hsimplified⟩ := simplified_of_run (Program.hasProgram_parse hparse) hrun
  have hc := hsimplified.folded
  rcases run_simplifyExpressions_iff hc.after (hc.whole (Program.tiered_parse hparse) hwhole)
    fun i hi => hc.decimal hi with ⟨again, g', hrun', hagain⟩
  cases again with
  | true => exact ⟨g', hrun'⟩
  | false =>
      have hfoldable := literalValue?_eq_some_iff.mpr ⟨hoperation, hvalue, rfl⟩
      cases hfoldable.symm.trans (hagain.mp rfl e hwithin)

end Untangle
