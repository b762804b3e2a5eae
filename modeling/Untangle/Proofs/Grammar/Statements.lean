import Untangle.Grammar.Statement
import Untangle.Proofs.Grammar.Expressions

/-!
# Statements build trees
-/

namespace Untangle
namespace Descent

open Forest Parse Role

variable {d : Descent}

/-!
## Variables
-/

theorem buildsNode_declarator (hd : d.BuildsTrees) : BuildsNode [] .plain d.declarator := by
  refine .quiet quiet_offset fun start => ?_
  refine .node (hd .bindingTarget) fun name => ?_
  refine .quiet (quiet_eatMark _) fun found => .ite ?_ ?_
  · exact .node (hd .assignment) fun value => .addEnding rfl rfl
  · exact .quiet (quiet_endOf _) fun stop => .add rfl (fullEntries_none rfl)

theorem buildsItem_declarator (hd : d.BuildsTrees) : BuildsItem d.declaratorTurn :=
  .node (buildsNode_declarator hd) fun i => buildsItem_beforeComma _ i

theorem buildsNode_declarationList (hd : d.BuildsTrees) :
    BuildsNode [] .plain d.declarationList := by
  refine .quiet quiet_offset fun start => .quiet quiet_kind fun k => ?_
  refine .quiet quiet_advance fun _ => ?_
  refine .list (buildsList_repeated (buildsItem_declarator hd) _) fun declarators => ?_
  extract_lets close
  have hclose : ∀ stop, BuildsNode (plainly declarators) .plain (close stop) :=
    fun stop => .addItems declarators rfl rfl
  split
  · exact .quiet (quiet_endOf _) fun stop => hclose stop
  · exact .given (hclose start)

theorem still_checkDeclarator (kind : VariableKind) (declarator : NodeId) :
    Still (checkDeclarator kind declarator) := by
  refine .bind (still_node? _) fun node => ?_
  split
  · refine .bind .get fun state => .ite ?_ (.ite ?_ (.pure ()))
    · exact .bind (still_startOf _) fun start => .failAt _ _
    · exact .bind (still_startOf _) fun start => .failAt _ _
  · exact .pure ()

theorem still_checkDeclarations (statement : NodeId) : Still (checkDeclarations statement) := by
  refine .bind (still_node? _) fun node => ?_
  split
  · exact .forM fun declarator => still_checkDeclarator _ declarator
  · exact .pure ()

theorem quiet_checkDeclarations (statement : NodeId) : Quiet (checkDeclarations statement) :=
  (still_checkDeclarations statement).quiet

theorem buildsNode_variableStatement (hd : d.BuildsTrees) :
    BuildsNode [] .plain d.variableStatement := by
  refine .node (buildsNode_declarationList hd) fun statement => ?_
  refine .quiet (quiet_checkDeclarations _) fun _ => ?_
  exact .quiet quiet_semicolon fun _ => .pure rfl

/-!
## Conditions and loops
-/

theorem buildsNode_parenthesized (hd : d.BuildsTrees) : BuildsNode [] .plain d.parenthesized := by
  refine .quiet (quiet_expectMark _) fun _ => ?_
  refine .node (buildsNode_expression hd) fun e => ?_
  exact .quiet (quiet_expectMark _) fun _ => .pure rfl

theorem buildsNode_conditionalStatement (hd : d.BuildsTrees) :
    BuildsNode [] .plain d.conditionalStatement := by
  refine .quiet quiet_offset fun start => ?_
  refine .quiet (quiet_expect _) fun _ => ?_
  refine .node (buildsNode_parenthesized hd) fun condition => ?_
  refine .node (hd .statement) fun whenTrue => ?_
  refine .quiet (quiet_eat _) fun found => .ite ?_ ?_
  · exact .node (hd .statement) fun whenFalse => .addEnding rfl rfl
  · exact .quiet (quiet_endOf _) fun stop => .addPlain rfl (fullEntries_none rfl) rfl

theorem buildsNode_guarded (hd : d.BuildsTrees) {form : GuardForm} (hform : form ≠ .doLoop)
    (word : Keyword) : BuildsNode [] .plain (d.guarded form word) := by
  refine .quiet quiet_offset fun start => ?_
  refine .quiet (quiet_expect _) fun _ => ?_
  refine .node (buildsNode_parenthesized hd) fun condition => ?_
  refine .node (hd .statement) fun body => ?_
  cases form with
  | doLoop => exact absurd rfl hform
  | whileLoop => exact .addEnding rfl rfl
  | withObject => exact .addEnding rfl rfl

theorem buildsNode_doLoop (hd : d.BuildsTrees) : BuildsNode [] .plain d.doLoop := by
  refine .quiet quiet_offset fun start => ?_
  refine .quiet (quiet_expect _) fun _ => ?_
  refine .node (hd .statement) fun body => ?_
  refine .quiet (quiet_expect _) fun _ => ?_
  refine .quiet (quiet_expectMark _) fun _ => ?_
  refine .node (buildsNode_expression hd) fun condition => ?_
  refine .quiet (quiet_expectMark _) fun stop => ?_
  exact .quiet (quiet_eatMark _) fun _ => .addFilled rfl rfl

theorem buildsSlot_loopInitializer (hd : d.BuildsTrees) : BuildsSlot [] d.loopInitializer := by
  refine .quiet quiet_kind fun k => ?_
  split
  · exact .pure rfl
  · exact .node (buildsNode_declarationList hd) fun i => .pure rfl
  · exact .node (buildsNode_declarationList hd) fun i => .pure rfl
  · refine .quiet quiet_scanner fun s => .ite ?_ ?_
    · exact .node (buildsNode_declarationList hd) fun i => .pure rfl
    · exact .node (buildsNode_expression hd) fun i => .pure rfl
  · exact .node (buildsNode_expression hd) fun i => .pure rfl

/-- A declaration counts as the head of an iteration, and so does what can be assigned to. -/
theorem builds_checkIterationTarget (target : Slot) :
    Builds (heldSlot target) (checkIterationTarget target) fun _ roots =>
      ∃ i, target = some i ∧ roots = [(i, .head)] := by
  cases target with
  | none => exact .quiet .get fun state => .fail _
  | some i =>
      refine .ofFrom fun f rest hgrown => .get fun state hstate => ?_
      extract_lets forest bareDeclarator
      obtain rfl : forest = f := hstate
      have hplain := hgrown.roles (i, .plain) List.mem_cons_self
      have hhead : forest.HasRole .head i → ∃ roots : List Held,
          (∃ j, some i = some j ∧ roots = [(j, .head)]) ∧ forest.GrownAs (roots ++ rest) :=
        fun h => ⟨_, ⟨i, rfl, rfl⟩, hgrown.recastFirst h⟩
      have hliteral : From forest (Pattern.convert i) fun _ g => ∃ roots : List Held,
          (∃ j, some i = some j ∧ roots = [(j, .head)]) ∧ g.GrownAs (roots ++ rest) :=
        (Pattern.converts_convert hgrown.grown.wellFormed hplain).mono fun _ g hg =>
          ⟨_, ⟨i, rfl, rfl⟩, hgrown.becomes (hg.fits .target_head)⟩
      split
      · exact .ite (fun _ => .pure (hhead (hplain.head_of_declaration ‹_›))) fun _ => .fail _
      · rename_i j _ heq _
        obtain rfl := Option.some.inj heq
        exact hliteral
      · rename_i j _ heq _
        obtain rfl := Option.some.inj heq
        exact hliteral
      · rename_i n _ _ _ _ hn
        refine .ite (fun htarget => .pure (hhead ?_)) fun _ => .fail _
        exact (hplain.leaf_of_isTarget hn htarget).fits (.trans .leaf_target .target_head)
      · exact .fail _

theorem buildsNode_iteration (hd : d.BuildsTrees) (start : Nat) (target : Slot)
    (form : IterationForm) (isAwait : Bool) :
    BuildsNode (heldSlot target) .plain (d.iteration start target form isAwait) := by
  refine @Builds.bind _ _ _ _ _ [] _ _ (builds_checkIterationTarget target) fun _ roots hroots => ?_
  rcases hroots with ⟨i, rfl, rfl⟩
  refine .quiet quiet_advance fun _ => ?_
  extract_lets close
  have hclose : ∀ subject, BuildsNode [(i, .head), (subject, .plain)] .plain (close subject) := by
    intro subject
    refine .quiet (quiet_expectMark _) fun _ => ?_
    refine .node (hd .statement) fun body => ?_
    exact .addEnding rfl rfl
  split
  · exact .node (.withReader (hd .assignment)) hclose
  · exact .node (.withReader (buildsNode_expression hd)) hclose

theorem buildsSlot_optionalExpression (hd : d.BuildsTrees) (stop : Punctuator) :
    BuildsSlot [] (d.optionalExpression stop) := by
  refine .quiet (quiet_isAtMark _) fun found => .ite (.pure rfl) ?_
  exact .node (.withReader (buildsNode_expression hd)) fun i => .pure rfl

theorem buildsNode_forLoop (hd : d.BuildsTrees) (start : Nat) (initializer : Slot) :
    BuildsNode (heldSlot initializer) .plain (d.forLoop start initializer) := by
  unfold forLoop
  extract_lets close
  have hclose : ∀ u, BuildsNode (heldSlot initializer) .plain (close u) := by
    intro u
    refine .quiet (quiet_expectMark _) fun _ => ?_
    refine .slot (buildsSlot_optionalExpression hd _) fun condition => ?_
    refine .quiet (quiet_expectMark _) fun _ => ?_
    refine .slot (buildsSlot_optionalExpression hd _) fun increment => ?_
    refine .quiet (quiet_expectMark _) fun _ => ?_
    refine .node (hd .statement) fun body => ?_
    refine .quiet (quiet_endOf _) fun stop => .addPlain rfl (fullEntries_none rfl) ?_
    cases initializer <;> cases condition <;> cases increment <;> rfl
  split
  · exact .quiet (quiet_checkDeclarations _) hclose
  · exact .given (hclose ())

theorem buildsNode_forStatement (hd : d.BuildsTrees) : BuildsNode [] .plain d.forStatement := by
  refine .quiet quiet_offset fun start => ?_
  refine .quiet (quiet_expect _) fun _ => ?_
  refine .quiet quiet_isAtAwait fun isAwait => ?_
  refine .optionally quiet_advance fun _ => ?_
  refine .quiet (quiet_expectMark _) fun _ => ?_
  refine .slot (.withReader (buildsSlot_loopInitializer hd)) fun initializer => ?_
  refine .quiet (quiet_isAtWord _) fun atOf => .ite (buildsNode_iteration hd ..) ?_
  refine .ite (.fail _) (.quiet (quiet_isAt _) fun atIn => ?_)
  exact .ite (buildsNode_iteration hd ..) (buildsNode_forLoop hd start initializer)

/-!
## Jumps
-/

theorem buildsNode_returnStatement (hd : d.BuildsTrees) :
    BuildsNode [] .plain d.returnStatement := by
  refine .quiet quiet_token fun t => .quiet quiet_advance fun _ => ?_
  refine .quiet quiet_token fun next => .ite ?_ ?_
  · exact .quiet quiet_semicolon fun _ => .addPlain rfl (fullEntries_none rfl) rfl
  · refine .node (buildsNode_expression hd) fun value => .quiet (quiet_endOf _) fun stop => ?_
    exact .quiet quiet_semicolon fun _ => .addFilled rfl rfl

theorem buildsNode_throwStatement (hd : d.BuildsTrees) : BuildsNode [] .plain d.throwStatement := by
  refine .quiet quiet_offset fun start => .quiet quiet_advance fun _ => ?_
  refine .quiet quiet_token fun t => .ite (.fail _) ?_
  refine .node (buildsNode_expression hd) fun value => .quiet (quiet_endOf _) fun stop => ?_
  exact .quiet quiet_semicolon fun _ => .addFilled rfl rfl

theorem buildsNode_jump (form : JumpForm) : BuildsNode [] .plain (jump form) := by
  refine .quiet quiet_token fun t => .quiet quiet_advance fun _ => ?_
  refine .quiet quiet_token fun next => .quiet quiet_isAtIdentifier fun found => .ite ?_ ?_
  · refine .node (.fits buildsNode_identifier .leaf_name) fun label => ?_
    refine .quiet (quiet_endOf _) fun stop => ?_
    exact .quiet quiet_semicolon fun _ => .addFilled rfl rfl
  · exact .quiet quiet_semicolon fun _ => .addPlain rfl (fullEntries_none rfl) rfl

/-!
## Exceptions
-/

theorem buildsNode_catchClause (hd : d.BuildsTrees) : BuildsNode [] .plain d.catchClause := by
  refine .quiet quiet_offset fun start => .quiet quiet_advance fun _ => ?_
  refine .quiet (quiet_eatMark _) fun found => ?_
  extract_lets close
  have hclose : ∀ binding : Slot,
      BuildsNode (binding.toList.map (·, .target true)) .plain (close binding) := by
    intro binding
    refine .node (buildsNode_block hd) fun block => ?_
    refine .quiet (quiet_endOf _) fun stop => .add ?_ (fullEntries_none rfl)
    cases binding <;> rfl
  refine .ite ?_ (.given (hclose none))
  refine .node (hd .bindingTarget) fun target => ?_
  exact .quiet (quiet_expectMark _) fun _ => .given (hclose (some target))

theorem buildsNode_tryStatement (hd : d.BuildsTrees) : BuildsNode [] .plain d.tryStatement := by
  refine .quiet quiet_offset fun start => .quiet (quiet_expect _) fun _ => ?_
  refine .node (buildsNode_block hd) fun block => .quiet (quiet_isAt _) fun found => ?_
  extract_lets finish
  have hfinish : ∀ handler,
      BuildsNode ((block, .plain) :: heldSlot handler) .plain (finish handler) := by
    intro handler
    refine .quiet (quiet_eat _) fun found => ?_
    extract_lets close
    have hclose : ∀ finalizer,
        BuildsNode ((block, .plain) :: heldSlot handler ++ heldSlot finalizer) .plain
          (close finalizer) := by
      intro finalizer
      dsimp only [close]
      split
      · refine .quiet (quiet_endOf _) fun stop => .addPlain rfl (fullEntries_none rfl) ?_
        cases handler <;> cases finalizer <;> rfl
      · exact .fail _
    refine .ite ?_ (.given ?_)
    · exact .node (buildsNode_block hd) fun finalizer => .given (hclose (some finalizer))
    · simpa [heldSlot, plainly] using hclose none
  refine .ite ?_ (.given (hfinish none))
  exact .node (buildsNode_catchClause hd) fun handler => .given (hfinish (some handler))

/-!
## Switches
-/

theorem buildsItem_clauseStatement (hd : d.BuildsTrees) : BuildsItem d.clauseStatementTurn := by
  refine .quiet quiet_kind fun k => ?_
  split
  · exact .pure rfl
  · exact .pure rfl
  · exact .pure rfl
  · exact .pure rfl
  · exact .node (hd .statement) fun i => .pure rfl

theorem buildsNode_clauseRest (hd : d.BuildsTrees) (start : Nat) (test : Slot) :
    BuildsNode (heldSlot test) .plain (d.clauseRest start test) := by
  refine .quiet (quiet_expectMark _) fun colon => ?_
  refine .list (buildsList_repeated (buildsItem_clauseStatement hd) _) fun statements => ?_
  extract_lets close
  have hclose : ∀ stop, BuildsNode (heldSlot test ++ plainly statements) .plain (close stop) := by
    intro stop
    refine .addPlain rfl (fullEntries_map rfl) ?_
    cases test <;> simp [heldSlot, plainly, childrenOf, Node.slots, List.filterMap_map]
  split
  · exact .quiet (quiet_endOf _) hclose
  · exact .given (hclose colon)

theorem buildsList_clauses (hd : d.BuildsTrees) (fuel : Nat) (hasDefault : Bool)
    (reversed : List NodeId) :
    BuildsList (plainly reversed.reverse) (d.clauses fuel hasDefault reversed) := by
  induction fuel generalizing hasDefault reversed with
  | zero => exact .fail _
  | succ fuel ih =>
      refine .quiet quiet_offset fun start => .quiet quiet_kind fun k => ?_
      split
      · exact .pure rfl
      · refine .quiet quiet_advance fun _ => ?_
        refine .node (buildsNode_expression hd) fun test => ?_
        refine .wrap _ (buildsNode_clauseRest hd start (some test)) fun clause => ?_
        have hmore := ih hasDefault (clause :: reversed)
        rwa [plainly_reverse_cons] at hmore
      · refine .ite (.fail _) (.quiet quiet_advance fun _ => ?_)
        refine .node (buildsNode_clauseRest hd start none) fun clause => ?_
        have hmore := ih true (clause :: reversed)
        rwa [plainly_reverse_cons] at hmore
      · exact .fail _

theorem buildsNode_switchStatement (hd : d.BuildsTrees) :
    BuildsNode [] .plain d.switchStatement := by
  refine .quiet quiet_offset fun start => .quiet (quiet_expect _) fun _ => ?_
  refine .node (buildsNode_parenthesized hd) fun subject => ?_
  refine .quiet (quiet_expectMark _) fun _ => ?_
  refine .list (buildsList_clauses hd _ false []) fun clauses => ?_
  exact .quiet (quiet_expectMark _) fun stop => .addItems (subject :: clauses) rfl rfl

/-!
## Statements
-/

theorem buildsNode_expressionStatement (hd : d.BuildsTrees) :
    BuildsNode [] .plain d.expressionStatement := by
  refine .quiet quiet_offset fun start => ?_
  refine .node (buildsNode_expression hd) fun e => .quiet (quiet_endOf _) fun stop => ?_
  exact .quiet quiet_semicolon fun _ => .addFilled rfl rfl

theorem buildsNode_labeledStatement (hd : d.BuildsTrees) :
    BuildsNode [] .plain d.labeledStatement := by
  refine .quiet quiet_offset fun start => ?_
  refine .node (.fits buildsNode_identifier .leaf_name) fun label => ?_
  refine .quiet (quiet_expectMark _) fun _ => ?_
  exact .node (hd .statement) fun body => .addEnding rfl rfl

theorem buildsNode_debuggerStatement : BuildsNode [] .plain debuggerStatement := by
  refine .quiet quiet_token fun t => .quiet quiet_advance fun _ => ?_
  exact .quiet quiet_semicolon fun _ => .addFilled rfl rfl

theorem buildsNode_otherStatement (hd : d.BuildsTrees) : BuildsNode [] .plain d.otherStatement := by
  refine .quiet quiet_isAtIdentifier fun found => .quiet quiet_scanner fun s => ?_
  exact .ite (buildsNode_labeledStatement hd) (buildsNode_expressionStatement hd)

theorem buildsNode_statement (hd : d.BuildsTrees) : BuildsNode [] .plain d.statementProduction := by
  refine .quiet quiet_scanner fun s => ?_
  split
  · exact buildsNode_block hd
  · exact buildsNode_single rfl rfl
  · exact buildsNode_variableStatement hd
  · exact buildsNode_variableStatement hd
  · exact .ite (buildsNode_variableStatement hd) (buildsNode_otherStatement hd)
  · exact buildsNode_functionDeclaration hd false
  · exact .ite (buildsNode_functionDeclaration hd true) (buildsNode_otherStatement hd)
  · exact buildsNode_classDeclaration hd
  · exact buildsNode_conditionalStatement hd
  · exact buildsNode_forStatement hd
  · exact buildsNode_guarded hd (by decide) _
  · exact buildsNode_doLoop hd
  · exact buildsNode_returnStatement hd
  · exact buildsNode_throwStatement hd
  · exact buildsNode_jump .«break»
  · exact buildsNode_jump .«continue»
  · exact buildsNode_tryStatement hd
  · exact buildsNode_switchStatement hd
  · exact buildsNode_guarded hd (by decide) _
  · exact buildsNode_debuggerStatement
  · exact .ite (buildsNode_expressionStatement hd) (.fail _)
  · exact .fail _
  · exact .fail _
  · exact buildsNode_otherStatement hd

end Descent
end Untangle
