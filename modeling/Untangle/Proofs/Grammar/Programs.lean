import Untangle.Grammar.Program
import Untangle.Proofs.Grammar.Statements

/-!
# Programs are trees

Every production leaves the trees that stand beside it alone and turns the ones it is given into
one. A parsed program is therefore a single tree, and all nodes of its forest are in it. Defaults
of shorthand properties are looked for at the end, when it is known which literals are patterns.
-/

namespace Untangle

open Forest Parse

/-!
## Productions
-/

namespace Descent

variable {d : Descent}

theorem buildsNode_production (hd : d.BuildsTrees) (goal : Goal) :
    BuildsNode [] goal.role (d.production goal) := by
  cases goal with
  | statement => exact .deeper (buildsNode_statement hd)
  | assignment => exact .deeper (buildsNode_assignment hd)
  | binary bound => exact buildsNode_binary hd bound
  | unary => exact buildsNode_unary hd
  | leftHandSide => exact buildsNode_leftHandSide hd
  | newExpression => exact buildsNode_newExpression hd
  | bindingTarget => exact buildsNode_bindingTarget hd

end Descent

theorem buildsTrees_parseGoal (fuel bound : Nat) :
    Descent.BuildsTrees ⟨parseGoal fuel, bound⟩ := by
  induction fuel generalizing bound with
  | zero => exact fun goal => .fail _
  | succ fuel ih => exact fun goal => Descent.buildsNode_production (ih fuel) goal

/-!
## Defaults outside of patterns
-/

namespace Forest

variable {f : Forest} {i : NodeId} {start stop : Nat}

/-- A property in an object literal whose value is a default. -/
def StrayShorthand (f : Forest) (i : NodeId) : Prop :=
  ∃ kind key value computed left operator right elements,
    f.node? (some i) = some (.property kind key value computed) ∧
    f.node? value = some (.binary .default left operator right) ∧
    f.node? (f.parent (some i)) = some (.list .objectLiteral elements)

theorem isStrayShorthand_of_strayShorthand {c : Cell} (hc : f.cell? (some i) = some c)
    (h : f.StrayShorthand i) : isStrayShorthand f c = true := by
  rcases h with ⟨kind, key, value, computed, left, operator, right, elements, hn, hvalue, hparent⟩
  have hnode : c.node = .property kind key value computed := by
    rw [node?_eq, hc] at hn
    exact Option.some.inj hn
  rw [parent_eq, hc, Option.bind_some] at hparent
  rw [isStrayShorthand, hnode]
  simp only [satisfies, hvalue, hparent, Option.any_some, Bool.and_self]

theorem not_strayShorthand_of_find? (h : f.cells.find? (isStrayShorthand f) = none) :
    ¬ f.StrayShorthand i := by
  intro hstray
  cases hc : f.cell? (some i) with
  | none =>
      rcases hstray with ⟨_, _, _, _, _, _, _, _, hn, _⟩
      rw [node?_eq, hc] at hn
      cases hn
  | some c =>
      have hnot := Array.find?_eq_none.mp h c (Array.mem_of_getElem? hc)
      exact hnot (isStrayShorthand_of_strayShorthand hc hstray)

/-- A body is no part of a stray property, and none of its statements is one. -/
theorem StrayShorthand.of_add_body {form : BodyForm} {statements : List Slot}
    (h : (f.add (.body form statements) start stop).2.StrayShorthand i) : f.StrayShorthand i := by
  rcases h with ⟨kind, key, value, computed, left, operator, right, elements, hn, hvalue, hparent⟩
  have hself : (f.add (.body form statements) start stop).2.node? (some f.size) = _ :=
    node?_add_self
  have hold : ∀ {s n}, (f.add (.body form statements) start stop).2.node? s = some n →
      (∀ form statements, n ≠ .body form statements) → f.node? s = some n ∧ s ≠ some f.size := by
    intro s n hn hne
    cases s with
    | none => cases hn
    | some j =>
        have hj : j ≠ f.size := by
          rintro rfl
          exact hne _ _ (Option.some.inj (hn.symm.trans hself))
        exact ⟨node?_add_of_ne hj ▸ hn, fun heq => hj (Option.some.inj heq)⟩
  have hi := hold hn (by simp)
  have hin := hold hparent (by simp)
  have hne : i ≠ f.size := fun heq => hi.2 (congrArg some heq)
  have hmem : i ∉ childrenOf (.body form statements) := fun hmem =>
    hin.2 (parent_add_of_mem (lt_size_of_node? hi.1) hmem)
  refine ⟨kind, key, value, computed, left, operator, right, elements, hi.1,
    (hold hvalue (by simp)).1, ?_⟩
  exact parent_add_of_ne hne hmem ▸ hin.1

end Forest

theorem run_checkShorthands {ctx : Context} {s s' : ParseState} {u : Unit}
    (h : checkShorthands ctx s = .ok (u, s')) :
    s.forest.cells.find? (isStrayShorthand s.forest) = none ∧ s = s' := by
  rcases run_bind.mp h with ⟨_, _, hget, h⟩
  rcases run_get.mp hget with ⟨rfl, rfl⟩
  cases hfind : s.forest.cells.find? (isStrayShorthand s.forest) with
  | none =>
      rw [hfind] at h
      exact ⟨rfl, (run_pure.mp h).2⟩
  | some cell =>
      rw [hfind] at h
      cases h

/-!
## Programs
-/

theorem still_checkShorthands : Still checkShorthands := by
  refine .bind .get fun state => ?_
  extract_lets forest
  split
  · exact .failAt _ _
  · exact .pure ()

theorem quiet_checkShorthands : Quiet checkShorthands :=
  still_checkShorthands.quiet

theorem buildsItem_program {d : Descent} (hd : d.BuildsTrees) : BuildsItem (programTurn d) := by
  refine .quiet (quiet_isAt _) fun found => .ite (.pure rfl) ?_
  exact .node (hd .statement) fun i => .pure rfl

theorem buildsNode_program {d : Descent} (hd : d.BuildsTrees) :
    BuildsNode [] .plain (program d) := by
  refine .quiet quiet_advance fun _ => ?_
  refine .list (buildsList_repeated (buildsItem_program hd) _) fun statements => ?_
  refine .quiet quiet_checkShorthands fun _ => ?_
  exact .quiet quiet_tokenEnd fun stop => .addItems statements rfl rfl

namespace Program

variable {source : String} {p : Program}

theorem parse_eq (source : String) :
    parse source = (program ⟨parseGoal (parseFuel source), parseFuel source⟩ .outermost
      ⟨.ofString source, .empty⟩ >>= fun r => .ok (⟨r.2.forest, r.1⟩ : Program)) :=
  rfl

/-- A parsed program is what the grammar makes of its source. -/
theorem run_of_parse (h : parse source = .ok p) :
    ∃ state : ParseState, program ⟨parseGoal (parseFuel source), parseFuel source⟩ .outermost
      ⟨.ofString source, .empty⟩ = .ok (p.root, state) ∧ state.forest = p.forest := by
  rw [parse_eq] at h
  cases hrun : program ⟨parseGoal (parseFuel source), parseFuel source⟩ .outermost
      ⟨.ofString source, .empty⟩ with
  | error e =>
      rw [hrun] at h
      cases h
  | ok r =>
      rcases r with ⟨root, state⟩
      rw [hrun] at h
      cases h
      exact ⟨state, rfl, rfl⟩

theorem parse_of_mem_toOption (h : p ∈ (parse source).toOption) : parse source = .ok p := by
  cases hparse : parse source with
  | error e =>
      rw [hparse] at h
      cases h
  | ok p' =>
      rw [hparse] at h
      exact congrArg Except.ok (Option.some.inj h)

theorem grownAs_parse (h : parse source = .ok p) : p.forest.GrownAs [(p.root, .plain)] := by
  rcases run_of_parse h with ⟨state, hrun, hforest⟩
  have hstart : Forest.empty.GrownAs ([] ++ []) := grownAs_empty
  obtain ⟨roots, rfl, hgrown⟩ := buildsNode_program (buildsTrees_parseGoal _ _) hstart hrun
  exact hforest ▸ hgrown

theorem grown_parse (h : parse source = .ok p) : p.forest.Grown [p.root] :=
  (grownAs_parse h).grown

/-- The root is added last, once no property of a literal has a default. -/
theorem exists_add_of_parse (h : parse source = .ok p) :
    ∃ (f : Forest) (statements : List NodeId) (stop : Nat),
      f.cells.find? (isStrayShorthand f) = none ∧
      f.add (.body .program (statements.map some)) 0 stop = (p.root, p.forest) := by
  rcases run_of_parse h with ⟨state, hrun, hforest⟩
  rcases run_bind.mp hrun with ⟨_, _, _, hrun⟩
  rcases run_bind.mp hrun with ⟨statements, _, _, hrun⟩
  rcases run_bind.mp hrun with ⟨_, _, hcheck, hrun⟩
  rcases run_bind.mp hrun with ⟨stop, s, hstop, hadd⟩
  obtain ⟨hroot, hstate⟩ := Prod.mk.inj (Except.ok.inj hadd)
  obtain ⟨hnone, rfl⟩ := run_checkShorthands hcheck
  refine ⟨s.forest, statements, stop, quiet_tokenEnd hstop ▸ hnone, ?_⟩
  rw [← hforest, ← hstate, ← hroot]
  rfl

theorem node?_root_parse (h : parse source = .ok p) :
    ∃ statements, p.forest.node? (some p.root) = some (.body .program statements) := by
  rcases exists_add_of_parse h with ⟨f, statements, stop, _, hadd⟩
  obtain ⟨hroot, hforest⟩ := Prod.mk.inj hadd
  exact ⟨statements.map some, hforest ▸ hroot ▸ node?_add_self⟩

/-- No object literal of a parsed program keeps the default of a shorthand property. -/
theorem not_strayShorthand_parse {i : NodeId} (h : parse source = .ok p) :
    ¬ p.forest.StrayShorthand i := by
  rcases exists_add_of_parse h with ⟨f, statements, stop, hnone, hadd⟩
  obtain ⟨_, hforest⟩ := Prod.mk.inj hadd
  rw [← hforest]
  exact fun hstray => not_strayShorthand_of_find? hnone hstray.of_add_body

/-- The forest of a parsed program is one tree, each of whose nodes is younger than its
children. -/
theorem parse_oneTree (h : parse source = .ok p) :
    p.forest.parent (some p.root) = none ∧
      (p.forest.preorder (some p.root)).Perm (List.range p.forest.size) ∧
      ∀ i c, c ∈ p.forest.children (some i) → p.forest.parent (some c) = some i ∧ c < i := by
  have hgrown := grown_parse h
  refine ⟨(hgrown.mem_iff.mp (List.mem_singleton_self _)).2, hgrown.preorder_perm, ?_⟩
  intro i c hc
  have hlink := hgrown.wellFormed.linked.mpr hc
  exact ⟨hlink, hgrown.older hlink⟩

/-- An array literal that becomes a pattern. -/
theorem parse_oneTree_pattern :
    ∃ p, parse "[a = b] = c;" = .ok p ∧
      p.forest.parent (some p.root) = none ∧
      (p.forest.preorder (some p.root)).Perm (List.range p.forest.size) ∧
      ∀ i c, c ∈ p.forest.children (some i) → p.forest.parent (some c) = some i ∧ c < i := by
  have hok : (parse "[a = b] = c;").isOk = true := by decide +kernel
  cases h : parse "[a = b] = c;" with
  | error e =>
      rw [h] at hok
      cases hok
  | ok p => exact ⟨p, rfl, parse_oneTree h⟩

end Program
end Untangle
