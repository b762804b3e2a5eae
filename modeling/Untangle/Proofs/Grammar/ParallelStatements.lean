import Untangle.Proofs.Grammar.ParallelExpressions

/-!
# Parallel readings of statements
-/

namespace Untangle
namespace Descent

open Parse

variable {d₁ d₂ : Descent}

/-!
## Variables
-/

theorem same_declarator (hd : d₁.Alike d₂) : Same d₁.declarator d₂.declarator := by
  refine .any any_offset fun start start' => .next hd.bindingTarget fun name => ?_
  refine .next (same_eatMark (by decide)) fun found => .ite ?_ (same_addEnding ..)
  exact .next hd.assignment fun value => same_addEnding ..

theorem same_declaratorTurn (hd : d₁.Alike d₂) : Same d₁.declaratorTurn d₂.declaratorTurn :=
  .next (same_declarator hd) fun i => same_beforeComma i

theorem same_declarationList (hd : d₁.Alike d₂) :
    Same d₁.declarationList d₂.declarationList := by
  refine .any any_offset fun start start' => ?_
  refine .kind (fun kind => ?_) (Parallel.atEnd ?_)
  all_goals
    refine .next same_advance fun _ => ?_
    refine .next (same_repeated (same_declaratorTurn hd) ..) fun declarators => ?_
    split
    · exact same_addEnding ..
    · exact .given (same_add ..)

theorem same_checkDeclarator (kind : VariableKind) (declarator : NodeId) :
    Same (checkDeclarator kind declarator) (checkDeclarator kind declarator) := by
  refine .next (same_node? declarator) fun node => ?_
  split
  · refine .get fun s₁ s₂ hforest => ?_
    rw [Forest.identifierText?_eq_of_withoutSpans hforest]
    refine .ite (.any (any_startOf _) fun _ _ => .failAt ..) ?_
    exact .ite (.any (any_startOf _) fun _ _ => .failAt ..) (.pure rfl)
  · exact .pure rfl

theorem same_checkDeclarations (statement : NodeId) :
    Same (checkDeclarations statement) (checkDeclarations statement) := by
  refine .next (same_node? statement) fun node => ?_
  split
  · exact same_forM fun declarator => same_checkDeclarator _ declarator
  · exact .pure rfl

theorem same_variableStatement (hd : d₁.Alike d₂) :
    Same d₁.variableStatement d₂.variableStatement := by
  refine .next (same_declarationList hd) fun statement => ?_
  exact .next (same_checkDeclarations statement) fun _ => .next same_semicolon fun _ => .pure rfl

/-!
## Conditions and loops
-/

theorem same_parenthesized (hd : d₁.Alike d₂) : Same d₁.parenthesized d₂.parenthesized := by
  refine .any (any_expectMark _) fun _ _ => .next (same_expression hd) fun e => ?_
  exact .any (any_expectMark _) fun _ _ => .pure rfl

theorem same_conditionalStatement (hd : d₁.Alike d₂) :
    Same d₁.conditionalStatement d₂.conditionalStatement := by
  refine .any any_offset fun start start' => .any (any_expect _) fun _ _ => ?_
  refine .next (same_parenthesized hd) fun condition => .next hd.statement fun whenTrue => ?_
  refine .next (same_eat (by decide)) fun found => .ite ?_ (same_addEnding ..)
  exact .next hd.statement fun whenFalse => same_addEnding ..

theorem same_guarded (hd : d₁.Alike d₂) (form : GuardForm) (word : Keyword) :
    Same (d₁.guarded form word) (d₂.guarded form word) := by
  refine .any any_offset fun start start' => .any (any_expect _) fun _ _ => ?_
  refine .next (same_parenthesized hd) fun condition => ?_
  exact .next hd.statement fun body => same_addEnding ..

theorem same_doLoop (hd : d₁.Alike d₂) : Same d₁.doLoop d₂.doLoop := by
  refine .any any_offset fun start start' => .any (any_expect _) fun _ _ => ?_
  refine .next hd.statement fun body => .any (any_expect _) fun _ _ => ?_
  refine .any (any_expectMark _) fun _ _ => .next (same_expression hd) fun condition => ?_
  refine .any (any_expectMark _) fun _ _ => .next (same_eatMark (by decide)) fun _ => ?_
  exact same_add ..

theorem same_loopInitializer (hd : d₁.Alike d₂) :
    Same d₁.loopInitializer d₂.loopInitializer := by
  have hdeclarations : Same (d₁.declarationList >>= fun i => pure (some i))
      (d₂.declarationList >>= fun i => pure (some i)) :=
    .next (same_declarationList hd) fun i => .pure rfl
  have hexpression : Same (d₁.expression >>= fun i => pure (some i))
      (d₂.expression >>= fun i => pure (some i)) := .next (same_expression hd) fun i => .pure rfl
  refine .kind (fun kind => ?_) hexpression.atEnd
  split
  · exact .pure rfl
  · exact hdeclarations
  · exact hdeclarations
  · refine .scanner fun c₁ c₂ hc => ?_
    rw [hc.letDeclares]
    exact .ite hdeclarations hexpression
  · exact hexpression

theorem same_checkIterationTarget (target : Slot) :
    Same (checkIterationTarget target) (checkIterationTarget target) := by
  refine .get fun s₁ s₂ hforest => ?_
  dsimp only
  rw [Forest.node?_eq_of_withoutSpans hforest]
  split
  · simp only [Forest.node?_eq_of_withoutSpans hforest]
    exact .ite (.pure rfl) (.fail _)
  · exact Pattern.same_convert _
  · exact Pattern.same_convert _
  · exact .ite (.pure rfl) (.fail _)
  · exact .fail _

theorem same_iteration (hd : d₁.Alike d₂) (start start' : Nat) (target : Slot)
    (form : IterationForm) (isAwait : Bool) :
    Same (d₁.iteration start target form isAwait) (d₂.iteration start' target form isAwait) := by
  refine .next (same_checkIterationTarget target) fun _ => .next same_advance fun _ => ?_
  cases form with
  | overValues =>
      refine .next (.allowingIn hd.assignment) fun subject => .any (any_expectMark _) fun _ _ => ?_
      exact .next hd.statement fun body => same_addEnding ..
  | overKeys =>
      refine .next (.allowingIn (same_expression hd)) fun subject => ?_
      refine .any (any_expectMark _) fun _ _ => ?_
      exact .next hd.statement fun body => same_addEnding ..

theorem refuses_expression (hd : d₁.Alike d₂) : Refuses .expressionExpected d₁.expression :=
  .offset fun _ => hd.refuses_assignment.bind

/-- An expression in front of a semicolon, or of the mark that closes the head of a loop. -/
theorem same_optionalExpression (hd : d₁.Alike d₂) {stop : Punctuator}
    (hstop : stop ≠ .closeBracket) :
    Same (d₁.optionalExpression stop) (d₂.optionalExpression stop) := by
  have hexpression : Same (allowingIn d₁.expression >>= fun i => pure (some i))
      (allowingIn d₂.expression >>= fun i => pure (some i)) :=
    .next (.allowingIn (same_expression hd)) fun i => .pure rfl
  by_cases hparen : stop = .closeParen
  · subst hparen
    exact .isAtParen (fun found => .ite (.pure rfl) hexpression)
      (refuses_expression hd).allowingIn.bind
  · have hother : TokenKind.mark stop ∉ outerKinds := by
      simp [outerKinds, hstop, hparen]
    exact .next (same_isAtMark hother) fun found => .ite (.pure rfl) hexpression

theorem same_forLoop (hd : d₁.Alike d₂) (start start' : Nat) (initializer : Slot) :
    Same (d₁.forLoop start initializer) (d₂.forLoop start' initializer) := by
  have hrest : Same
      (do
        let _ ← expectMark .semicolon
        let condition ← d₁.optionalExpression .semicolon
        let _ ← expectMark .semicolon
        let increment ← d₁.optionalExpression .closeParen
        let _ ← expectMark .closeParen
        let body ← d₁.statement
        add (.forLoop initializer condition increment (some body)) start (← endOf body))
      (do
        let _ ← expectMark .semicolon
        let condition ← d₂.optionalExpression .semicolon
        let _ ← expectMark .semicolon
        let increment ← d₂.optionalExpression .closeParen
        let _ ← expectMark .closeParen
        let body ← d₂.statement
        add (.forLoop initializer condition increment (some body)) start' (← endOf body)) := by
    refine .any (any_expectMark _) fun _ _ => ?_
    refine .next (same_optionalExpression hd nofun) fun condition => ?_
    refine .any (any_expectMark _) fun _ _ => ?_
    refine .next (same_optionalExpression hd nofun) fun increment => ?_
    refine .any (any_expectMark _) fun _ _ => ?_
    exact .next hd.statement fun body => same_addEnding ..
  cases initializer with
  | none => exact .given hrest
  | some i => exact .next (same_checkDeclarations i) fun _ => hrest

theorem same_forStatement (hd : d₁.Alike d₂) : Same d₁.forStatement d₂.forStatement := by
  refine .any any_offset fun start start' => .any (any_expect _) fun _ _ => ?_
  refine .next same_isAtAwait fun isAwait => .optionally same_advance fun _ => ?_
  refine .any (any_expectMark _) fun _ _ => ?_
  refine .next (.withoutIn (same_loopInitializer hd)) fun initializer => ?_
  refine .next (same_isAtWord "of") fun found => .ite (same_iteration hd ..) (.ite (.fail _) ?_)
  refine .next (same_isAt (by decide)) fun found => ?_
  exact .ite (same_iteration hd ..) (same_forLoop hd ..)

/-!
## Jumps
-/

theorem same_returnStatement (hd : d₁.Alike d₂) :
    Same d₁.returnStatement d₂.returnStatement := by
  refine .token fun t₁ t₂ ht => .next same_advance fun _ => .token fun n₁ n₂ hn => ?_
  rw [hn.endsStatement]
  refine .ite (.next same_semicolon fun _ => same_add ..) ?_
  refine .next (same_expression hd) fun value => .any (any_endOf value) fun _ _ => ?_
  exact .next same_semicolon fun _ => same_add ..

theorem same_throwStatement (hd : d₁.Alike d₂) : Same d₁.throwStatement d₂.throwStatement := by
  refine .any any_offset fun start start' => .next same_advance fun _ => ?_
  refine .token fun n₁ n₂ hn => ?_
  rw [hn.lineBreakBefore]
  refine .ite (.fail _) (.next (same_expression hd) fun value => ?_)
  exact .any (any_endOf value) fun _ _ => .next same_semicolon fun _ => same_add ..

theorem same_jump (form : JumpForm) : Same (jump form) (jump form) := by
  refine .token fun t₁ t₂ ht => .next same_advance fun _ => .token fun n₁ n₂ hn => ?_
  rw [hn.endsStatement]
  refine .next same_isAtIdentifier fun found => .ite ?_ (.next same_semicolon fun _ => same_add ..)
  refine .next same_identifier fun label => .any (any_endOf label) fun _ _ => ?_
  exact .next same_semicolon fun _ => same_add ..

/-!
## Exceptions
-/

theorem same_catchClause (hd : d₁.Alike d₂) : Same d₁.catchClause d₂.catchClause := by
  refine .any any_offset fun start start' => .next same_advance fun _ => ?_
  refine .next (same_eatMark (by decide)) fun found => ?_
  extract_lets close close'
  have hclose : ∀ binding, Same (close binding) (close' binding) := fun binding =>
    .next (same_block hd) fun block => same_addEnding ..
  refine .ite ?_ (.given (hclose none))
  refine .next hd.bindingTarget fun target => .any (any_expectMark _) fun _ _ => ?_
  exact .given (hclose (some target))

theorem same_tryStatement (hd : d₁.Alike d₂) : Same d₁.tryStatement d₂.tryStatement := by
  refine .any any_offset fun start start' => .any (any_expect _) fun _ _ => ?_
  refine .next (same_block hd) fun block => .next (same_isAt (by decide)) fun found => ?_
  extract_lets handled handled'
  have hhandled : ∀ handler, Same (handled handler) (handled' handler) := by
    refine fun handler => .next (same_eat (by decide)) fun found => ?_
    extract_lets close close'
    have hclose : ∀ finalizer, Same (close finalizer) (close' finalizer) := by
      intro finalizer
      dsimp only [close, close']
      split
      · exact same_addEnding ..
      · exact .fail _
    refine .ite ?_ (.given (hclose none))
    exact .next (same_block hd) fun block => .given (hclose (some block))
  refine .ite ?_ (.given (hhandled none))
  exact .next (same_catchClause hd) fun handler => .given (hhandled (some handler))

/-!
## Switches
-/

theorem same_clauseStatementTurn (hd : d₁.Alike d₂) :
    Same d₁.clauseStatementTurn d₂.clauseStatementTurn := by
  have hstatement : Same (d₁.statement >>= fun i => pure (Turn.item i))
      (d₂.statement >>= fun i => pure (Turn.item i)) := .next hd.statement fun i => .pure rfl
  refine .kind (fun kind => ?_) hstatement.atEnd
  split
  · exact .pure rfl
  · exact .pure rfl
  · exact .pure rfl
  · exact .pure rfl
  · exact hstatement

theorem same_clauseRest (hd : d₁.Alike d₂) (start start' : Nat) (test : Slot) :
    Same (d₁.clauseRest start test) (d₂.clauseRest start' test) := by
  refine .any (any_expectMark _) fun colon colon' => ?_
  refine .next (same_repeated (same_clauseStatementTurn hd) ..) fun statements => ?_
  split
  · exact same_addEnding ..
  · exact .given (same_add ..)

theorem same_clauses (hd : d₁.Alike d₂) (fuel₁ fuel₂ : Nat) (hasDefault : Bool)
    (reversed : List NodeId) :
    Same (d₁.clauses fuel₁ hasDefault reversed) (d₂.clauses fuel₂ hasDefault reversed) := by
  induction fuel₁ generalizing fuel₂ hasDefault reversed with
  | zero => exact .fail _
  | succ fuel₁ ih =>
      have hmore : ∀ fuel₂, Same (d₁.clauses (fuel₁ + 1) hasDefault reversed)
          (d₂.clauses (fuel₂ + 1) hasDefault reversed) := by
        refine fun fuel₂ => .any any_offset fun start start' => ?_
        refine .kind (fun kind => ?_) (Parallel.atEnd (.fail _))
        split
        · exact .pure rfl
        · refine .next same_advance fun _ => .next (same_expression hd) fun test => ?_
          exact .next (same_clauseRest hd ..) fun clause => ih fuel₂ hasDefault (clause :: reversed)
        · refine .ite (.fail _) (.next same_advance fun _ => ?_)
          exact .next (same_clauseRest hd ..) fun clause => ih fuel₂ true (clause :: reversed)
        · exact .fail _
      cases fuel₂ with
      | zero => exact (hmore 0).giveUp
      | succ fuel₂ => exact hmore fuel₂

theorem same_switchStatement (hd : d₁.Alike d₂) :
    Same d₁.switchStatement d₂.switchStatement := by
  refine .any any_offset fun start start' => .any (any_expect _) fun _ _ => ?_
  refine .next (same_parenthesized hd) fun subject => .any (any_expectMark _) fun _ _ => ?_
  refine .next (same_clauses hd ..) fun clauses => ?_
  exact .any (any_expectMark _) fun _ _ => same_add ..

/-!
## Statements
-/

theorem same_expressionStatement (hd : d₁.Alike d₂) :
    Same d₁.expressionStatement d₂.expressionStatement := by
  refine .any any_offset fun start start' => .next (same_expression hd) fun e => ?_
  exact .any (any_endOf e) fun _ _ => .next same_semicolon fun _ => same_add ..

theorem same_labeledStatement (hd : d₁.Alike d₂) :
    Same d₁.labeledStatement d₂.labeledStatement := by
  refine .any any_offset fun start start' => .next same_identifier fun label => ?_
  exact .any (any_expectMark _) fun _ _ => .next hd.statement fun body => same_addEnding ..

theorem same_debuggerStatement : Same debuggerStatement debuggerStatement :=
  .token fun _ _ _ => .next same_advance fun _ => .next same_semicolon fun _ => same_add ..

theorem same_otherStatement (hd : d₁.Alike d₂) : Same d₁.otherStatement d₂.otherStatement := by
  refine .next same_isAtIdentifier fun found => .scanner fun c₁ c₂ hc => ?_
  rw [hc.nextKind _ (by decide)]
  exact .ite (same_labeledStatement hd) (same_expressionStatement hd)

theorem same_statementProduction (hd : d₁.Alike d₂) :
    Same d₁.statementProduction d₂.statementProduction := by
  refine .scanner fun c₁ c₂ hc => ?_
  rcases hc.token.kind with hkind | ⟨hkind₁, hkind₂⟩
  · rw [hkind, hc.letDeclares, hc.token.isContextual, hc.asyncFunctionFollows,
      hc.nextKind _ (by decide)]
    split
    · exact same_block hd
    · exact same_single _
    · exact same_variableStatement hd
    · exact same_variableStatement hd
    · exact .ite (same_variableStatement hd) (same_otherStatement hd)
    · exact same_functionDeclaration hd false
    · exact .ite (same_functionDeclaration hd true) (same_otherStatement hd)
    · exact same_classDeclaration hd
    · exact same_conditionalStatement hd
    · exact same_forStatement hd
    · exact same_guarded hd ..
    · exact same_doLoop hd
    · exact same_returnStatement hd
    · exact same_throwStatement hd
    · exact same_jump _
    · exact same_jump _
    · exact same_tryStatement hd
    · exact same_switchStatement hd
    · exact same_guarded hd ..
    · exact same_debuggerStatement
    · exact .ite (same_expressionStatement hd) (.fail _)
    · exact .fail _
    · exact .fail _
    · exact same_otherStatement hd
  · rw [hkind₁, hkind₂]
    exact same_otherStatement hd

end Descent

/-!
## Goals
-/

/-- Every goal is answered alike, up to the depth at which one of the readings gives up. -/
theorem same_parseGoal (fuel₁ fuel₂ : Nat) (goal : Goal) :
    Parse.Same (parseGoal fuel₁ goal) (parseGoal fuel₂ goal) := by
  induction fuel₁ generalizing fuel₂ goal with
  | zero => exact .fail _
  | succ fuel₁ ih =>
      have hmore : ∀ fuel₂,
          Parse.Same (parseGoal (fuel₁ + 1) goal) (parseGoal (fuel₂ + 1) goal) := by
        intro fuel₂
        have hd : Descent.Alike ⟨parseGoal fuel₁, fuel₁⟩ ⟨parseGoal fuel₂, fuel₂⟩ :=
          ⟨ih fuel₂, refuses_parseGoal_assignment fuel₁, refuses_parseGoal_bindingTarget fuel₁⟩
        cases goal with
        | statement => exact .deeper (Descent.same_statementProduction hd)
        | assignment => exact .deeper (Descent.same_assignmentProduction hd)
        | binary bound => exact Descent.same_binaryProduction hd bound
        | unary => exact Descent.same_unaryProduction hd
        | leftHandSide => exact Descent.same_leftHandSideProduction hd
        | newExpression => exact Descent.same_newExpressionProduction hd
        | bindingTarget => exact Descent.same_bindingTargetProduction hd
      cases fuel₂ with
      | zero => exact (hmore 0).giveUp
      | succ fuel₂ => exact hmore fuel₂

end Untangle
