import Untangle.Detection.Technique
import Untangle.Proofs.Rewrite.Simplification

/-!
# Detected constant expressions

Constant expressions are detected in order to recommend that they be simplified. What is detected is
always simplified. The other way round, simplifying also folds logical operations, which are not
looked for.
-/

namespace Untangle

open Forest Bindings Rewrite

variable {f : Forest} {root i : NodeId}

/-!
## Nodes that are looked for
-/

theorem Forest.HasProgram.anyNode_iff (hf : f.HasProgram root) {p : NodeId → Node Slot → Bool} :
    f.anyNode (some root) p = true ↔
      ∃ i n, f.Within i root ∧ f.node? (some i) = some n ∧ p i n = true := by
  rcases hf.node with ⟨statements, hroot⟩
  rw [anyNode, List.any_eq_true]
  constructor
  · rintro ⟨i, hi, hany⟩
    rcases (Option.any_eq_true _ _).mp hany with ⟨n, hn, hp⟩
    exact ⟨i, n, (hf.wellFormed.mem_preorder (lt_size_of_node? hroot)).mp hi, hn, hp⟩
  · rintro ⟨i, n, hi, hn, hp⟩
    refine ⟨i, (hf.wellFormed.mem_preorder (lt_size_of_node? hroot)).mpr hi, ?_⟩
    exact (Option.any_eq_true _ _).mpr ⟨n, hn, hp⟩

theorem Forest.not_decimalAt_iff :
    ¬ f.DecimalAt i ↔
      ∃ x raw, f.node? (some i) = some (.number x (some raw)) ∧ isRadixNumeral raw = true := by
  simp [DecimalAt]

namespace Rewrite

def isLogicalOperation : Node Slot → Bool
  | .binary .logical _ _ _ => true
  | _ => false

end Rewrite

/-- The logical operation at `i` is known to have a value that can be written as a literal. -/
def Forest.FoldsLogical (f : Forest) (root i : NodeId) : Prop :=
  f.satisfies (some i) isLogicalOperation = true ∧ (f.literalValue? root i).isSome = true

/-- An operation that can be folded is a binary one, which is looked for, or a logical one. -/
theorem Forest.isSome_literalValue?_iff :
    (f.literalValue? root i).isSome = true ↔
      (∃ left operator right,
        f.node? (some i) = some (.binary .binary left operator right) ∧
          ((ofForest f (some root)).evaluate f (some i)).any Value.hasLiteral = true) ∨
      f.FoldsLogical root i := by
  rw [FoldsLogical, literalValue?, operationValue?, satisfies, satisfies]
  cases hn : f.node? (some i) with
  | none => simp
  | some n =>
      cases n with
      | binary form left operator right =>
          cases form with
          | binary => simp [isOperation, isLogicalOperation, Option.any_eq_true]
          | logical => simp [isOperation, isLogicalOperation]
          | assignment | default => simp [isOperation, isLogicalOperation]
      | _ => simp [isOperation, isLogicalOperation]

/-- Constant expressions are numbers that are not decimal and binary operations that can be
folded. -/
theorem Forest.HasProgram.hasConstantExpression_iff (hf : f.HasProgram root) :
    f.hasConstantExpression (ofForest f (some root)) (some root) = true ↔
      ∃ i, f.Within i root ∧ (¬ f.DecimalAt i ∨ ∃ left operator right,
        f.node? (some i) = some (.binary .binary left operator right) ∧
          ((ofForest f (some root)).evaluate f (some i)).any Value.hasLiteral = true) := by
  rw [hasConstantExpression, hf.anyNode_iff]
  refine exists_congr fun i => ?_
  rw [exists_and_left, not_decimalAt_iff]
  refine and_congr_right fun _ => ?_
  cases hn : f.node? (some i) with
  | none => simp
  | some n =>
      cases n with
      | number x raw => cases raw <;> simp
      | binary form left operator right => cases form <;> simp
      | _ => simp

/-!
## Detecting and simplifying
-/

/-- Simplifying changes a program exactly if constant expressions are detected in it or one of its
logical operations can be folded. -/
theorem hasConstantExpression_predicts_changed {source : String} {p : Program}
    (hparse : Program.parse source = .ok p)
    (hwhole : (ofForest p.forest (some p.root)).truncated = false) :
    ∃ changed g, (simplifyExpressions (some p.root)).run.run p.forest = (.ok changed, g) ∧
      (changed = true ↔
        p.forest.hasConstantExpression (ofForest p.forest (some p.root)) (some p.root) = true ∨
          ∃ i, p.forest.Within i p.root ∧ p.forest.FoldsLogical p.root i) := by
  have hf := Program.hasProgram_parse hparse
  rcases run_simplifyExpressions_changed_iff hf hwhole with ⟨changed, g, hrun, hchanged⟩
  refine ⟨changed, g, hrun, hchanged.trans ?_⟩
  rw [hf.hasConstantExpression_iff, ← exists_or]
  refine exists_congr fun i => ?_
  rw [isSome_literalValue?_iff, ← or_assoc, and_or_left]

/-!
## Runs of logical operations
-/

namespace Forest.Chain

variable {g : Forest} {n : Nat} {e k : NodeId}

/-- The nodes of a run are logical operations and `null`. -/
theorem node_of_within (h : g.Chain n e) (hg : g.WellFormed) (hk : g.Within k e) :
    g.node? (some k) = some (.bare .null) ∨ ∃ left right,
      g.node? (some k) = some (.binary .logical left (.mark .and) right) := by
  induction h with
  | null hi => exact .inl ((eq_of_within_leaf hg hi rfl hk).symm ▸ hi)
  | @and n i left right hi _ hright ih =>
      rcases within_iff.mp hk with rfl | ⟨a, hlink, hbelow⟩
      · exact .inr ⟨_, _, hi⟩
      · have hmem := hg.linked.mp hlink
        rw [children_of_node? hi, mem_childrenOf] at hmem
        rcases List.mem_pair.mp hmem with heq | heq
        · exact ih (Option.some.inj heq ▸ hbelow)
        · obtain rfl := Option.some.inj heq
          exact .inl ((eq_of_within_leaf hg hright rfl hbelow).symm ▸ hright)

end Forest.Chain

/-- Nothing is detected in a program that consists of one run. -/
theorem Descent.MakesChain.hasConstantExpression {n : Nat} (h : Descent.MakesChain n f i)
    (hf : f.HasProgram root) (hroot : f.node? (some root) = some (.body .program [some i])) :
    f.hasConstantExpression (ofForest f (some root)) (some root) = false := by
  rcases h with ⟨e, hi, he⟩
  refine Bool.eq_false_iff.mpr fun hdetected => ?_
  rcases hf.hasConstantExpression_iff.mp hdetected with ⟨k, hk, hsite⟩
  have hnode : ∀ {n}, f.node? (some k) = some n →
      (∀ x raw, n ≠ .number x raw) → (∀ l o r, n ≠ .binary .binary l o r) → False := by
    intro n hn hnumber hbinary
    rcases hsite with hnot | ⟨l, o, r, hn', _⟩
    · rcases not_decimalAt_iff.mp hnot with ⟨x, raw, hn', _⟩
      exact hnumber _ _ (Option.some.inj (hn.symm.trans hn'))
    · exact hbinary _ _ _ (Option.some.inj (hn.symm.trans hn'))
  rcases within_iff.mp hk with rfl | ⟨a, hlink, hbelow⟩
  · exact hnode hroot nofun nofun
  · have hmem := hf.wellFormed.linked.mp hlink
    rw [children_of_node? hroot, mem_childrenOf] at hmem
    obtain rfl := Option.some.inj (List.mem_singleton.mp hmem)
    rcases within_iff.mp hbelow with rfl | ⟨b, hlink', hbelow'⟩
    · exact hnode hi nofun nofun
    · have hmem' := hf.wellFormed.linked.mp hlink'
      rw [children_of_node? hi, mem_childrenOf] at hmem'
      obtain rfl := Option.some.inj (List.mem_singleton.mp hmem')
      rcases he.node_of_within hf.wellFormed hbelow' with hnull | ⟨left, right, hand⟩
      · exact hnode hnull nofun nofun
      · exact hnode hand nofun nofun

/-- A program that is simplified although nothing is detected in it. -/
theorem hasConstantExpression_predicts_changed_null : ∃ p g,
    Program.parse "null && null" = .ok p ∧
      (ofForest p.forest (some p.root)).truncated = false ∧
        p.forest.hasConstantExpression (ofForest p.forest (some p.root)) (some p.root) = false ∧
          (simplifyExpressions (some p.root)).run.run p.forest = (.ok true, g) := by
  rcases Program.exists_parse_chain (n := 1) (by decide) with ⟨p, i, hparse, hroot, hchain⟩
  have hf := Program.hasProgram_parse hparse
  have hwhole := hchain.whole hroot (by decide)
  rcases hasConstantExpression_predicts_changed hparse hwhole with ⟨changed, g, hrun, hchanged⟩
  refine ⟨p, g, hparse, hwhole, hchain.hasConstantExpression hf hroot, ?_⟩
  rcases hchain with ⟨e, hi, he⟩
  have hvalue : p.forest.literalValue? p.root e = some .null := by
    refine literalValue?_eq_some_iff.mpr ⟨?_, ?_, rfl⟩
    · cases he with
      | and he _ _ => rw [satisfies, he]; rfl
    · rw [evaluate, he.valueWithin?, if_pos (by decide)]
  have hfolds : p.forest.FoldsLogical p.root e := by
    refine ⟨?_, hvalue ▸ rfl⟩
    cases he with
    | and he _ _ => rw [satisfies, he]; rfl
  have hwithin : p.forest.Within e p.root :=
    .head (hf.wellFormed.link_of_slot hi (List.mem_singleton_self _))
      (.single (hf.wellFormed.link_of_slot hroot (List.mem_singleton_self _)))
  rw [hchanged.mpr (.inr ⟨e, hwithin, hfolds⟩)] at hrun
  exact hrun

end Untangle
