import Untangle.Proofs.Grammar.LayeredPrograms
import Untangle.Proofs.Grammar.SpannedFunctions

/-!
# Spans of parsed programs

Every production adds a node above what it has read since it began. So the spans of a parsed
program are nested, and its nodes start in the order of a walk over the tree. Literals of arrays
and objects are nested no deeper than the parser goes.
-/

namespace Untangle

open Forest Parse

namespace Descent

variable {d : Descent} {more : Nat}

/-!
## Sequences and literals
-/

/-- The last item of a list is the last that was read. -/
theorem rowOf_eq_cons {items : List NodeId} {last : NodeId} (h : items.getLast? = some last) :
    ∃ earlier, items = earlier ++ [last] ∧ rowOf items = .node last :: rowOf earlier := by
  obtain ⟨earlier, rfl⟩ := List.getLast?_eq_some_iff.mp h
  exact ⟨earlier, rfl, rowOf_concat earlier last⟩

theorem laysTurn_sequence (hd : d.LaysTrees) : LaysTurn more d.sequenceTurn := fun _ =>
  .steady (steady_eatMark _) fun _ _ =>
    .ite (.next (hd.assignment _) fun _ _ => .pure (.refl _)) (.pure (.refl _))

theorem laysNode_expression (hd : d.LaysTrees) : LaysNode more d.expression := by
  intro c
  refine .offset (.next (hd.assignment _) fun first _ => ?_)
  refine .next (laysList_repeated (laysTurn_sequence hd) _ _) fun others _ => ?_
  split
  · exact .pure (by simp)
  · rename_i last hlast
    obtain ⟨earlier, rfl, hrow⟩ := rowOf_eq_cons hlast
    exact .addEnding (rowOf earlier ++ [.node first])
      (by simp [childrenOf, Node.slots, List.filterMap_map]) (by simp [hrow]) .refl

theorem laysNode_spread (hd : d.LaysTrees) : LaysNode more d.spread := by
  intro c
  refine .offset (.steady (steady_expectMark _) fun _ _ => ?_)
  refine .next (.withReader (hd.assignment _) fun _ => rfl) fun value _ => ?_
  exact .addEnding [] rfl rfl .refl

theorem laysNode_spreadOrAssignment (hd : d.LaysTrees) :
    LaysNode more d.spreadOrAssignment := fun _ =>
  .still (still_isAtMark _) fun _ =>
    .ite (laysNode_spread hd _) (.withReader (hd.assignment _) fun _ => rfl)

theorem laysTurn_array (hd : d.LaysTrees) : LaysTurn more d.arrayTurn := by
  intro c
  refine .kind ?_
  split
  · exact .pure (.refl _)
  · exact .next (laysNode_hole _) fun i _ => .pure (.refl _)
  · exact .next (laysNode_spreadOrAssignment hd _) fun i _ => lays_beforeComma i _

theorem laysNode_arrayLiteral (hd : d.LaysTrees) : LaysNode (more + 1) d.arrayLiteral := by
  intro c
  refine .inside (.offset (.steady (steady_expectMark _) fun _ _ => ?_))
  refine .next (laysList_repeated (laysTurn_array hd) _ _) fun elements _ => ?_
  exact .expect fun _ => .add (.mark _ :: rowOf elements)
    (by simp [childrenOf, Node.slots, List.filterMap_map]) rfl .refl

theorem lays_methodProperty (hd : d.LaysTrees) (start : Nat) (head : MethodHead) {key : NodeId}
    (computed : Bool) {p : Piece} (hp : p.node? = some key) :
    Lays more [p, .mark start] (d.methodProperty start head key computed) fun i => [.node i] := by
  intro c
  refine .next (laysNode_methodFunction hd head _) fun method _ => ?_
  refine .still (still_checkAccessor _ _) fun _ => ?_
  exact .addEnding [p] (by simp [childrenOf, Node.slots, hp]) rfl .refl

theorem laysNode_objectProperty (hd : d.LaysTrees) : LaysNode more d.objectProperty := by
  intro c
  refine .offset (.still (still_isAtMark _) fun found => .ite ?_ ?_)
  · exact (laysNode_spread hd _).drop (by simp)
  refine .steady steady_methodHead fun head _ => ?_
  refine .isAtIdentifier fun isPlain hplain => ?_
  refine .next (laysFrom_propertyName hd false _) fun (key, computed) _ => .kind ?_
  have hshorthand : ∀ {c : Scanner} {isName : Bool} {start : Nat} {cause : SyntaxError.Cause},
      (isPlain = true → isName = true) → LaysNodeFrom more c [keyPiece isName key, .mark start] (
        if isPlain = true then do
          let value ← copyIdentifier key
          if ← eatMark .assign then
            let value ← d.defaultValue value
            let stop ← endOf value
            add (.property .shorthand (some key) (some value) computed) start stop
          else
            let stop ← endOf value
            add (.property .shorthand (some key) (some value) computed) start stop
        else Parse.fail cause) := by
    intro c isName start cause hname
    split
    · rename_i hplain
      rw [hname hplain]
      exact lays_shorthand hd key computed start c
    · exact .fail _
  split
  · exact lays_methodProperty hd _ head computed (node?_keyPiece _ key) _
  · refine .ite (.steady steady_advance fun _ _ => ?_) (.fail _)
    refine .next (.withReader (hd.assignment _) fun _ => rfl) fun value _ => ?_
    exact .addEnding [keyPiece _ key] (by simp [childrenOf, Node.slots]) rfl .refl
  · exact .ite (.fail _) (hshorthand hplain)
  · exact .ite (.fail _) (hshorthand hplain)
  · exact .ite (.fail _) (hshorthand hplain)
  · exact .fail _

theorem laysNode_objectLiteral (hd : d.LaysTrees) : LaysNode (more + 1) d.objectLiteral := by
  intro c
  refine .inside (.offset (.steady (steady_expectMark _) fun _ _ => ?_))
  refine .next (laysList_repeated (fun _ => ?_) _ _) fun properties _ => ?_
  · refine .still (still_isAtMark _) fun found => .ite (.pure (.refl _)) ?_
    exact .next (laysNode_objectProperty hd _) fun i _ => lays_beforeComma i _
  · exact .expect fun _ => .add (.mark _ :: rowOf properties)
      (by simp [childrenOf, Node.slots, List.filterMap_map]) rfl .refl

theorem laysNode_regularExpression : LaysNode more regularExpression := by
  intro c
  refine .offset (.scanner ?_)
  extract_lets rescanned
  split
  · exact .failAt _ _
  · refine .install (fun _ h => h.rescanSlash) c.start_rescanSlash ?_
    exact .pass fun _ => .add [.mark _] rfl rfl .refl

/-!
## Templates
-/

theorem lays_templateParts (hd : d.LaysTrees) (tagged : Bool) (fuel : Nat)
    (quasis : List Quasi) (expressions : List NodeId) :
    Lays more (expressions.map .node) (d.templateParts tagged fuel quasis expressions)
      fun parts => rowOf parts.2 := by
  induction fuel generalizing quasis expressions with
  | zero => exact fun _ => .fail _
  | succ fuel ih =>
      intro c
      refine .steady steady_advance fun _ _ => ?_
      refine .next (.withReader (laysNode_expression hd _) fun _ => rfl) fun e _ => .kind ?_
      split
      · exact .still (still_quasi _) fun piece => ih (piece :: quasis) (e :: expressions) _
      · exact .still (still_quasi _) fun piece => .pure (by simp [rowOf])
      · exact .fail _

theorem laysNode_template (hd : d.LaysTrees) (tagged : Bool) :
    LaysNode more (d.template tagged) := by
  intro c
  refine .offset (.still (still_quasi _) fun first => .still (still_isAt _) fun found => ?_)
  extract_lets close
  have hclose : ∀ parts : List Quasi × List NodeId,
      Lays more (rowOf parts.2 ++ [.mark c.token.start.offset]) (close parts)
        fun i => [.node i] := by
    intro parts c'
    refine .tokenEnd (.pass fun _ => ?_)
    exact .add (.mark c'.token.start.offset :: rowOf parts.2)
      (by simp [childrenOf, Node.slots, List.filterMap_map]) rfl .refl
  refine .ite (.chosen (hclose ([first], []) _)) ?_
  exact .next (lays_templateParts hd tagged _ [first] [] _) hclose

/-!
## Primary expressions
-/

theorem laysNode_single {n : Node Slot} (hslots : n.slots = []) (hplain : n.isCollection = false) :
    LaysNode more (single n) := fun _ =>
  .token (.pass fun _ => .add [] (by simp [childrenOf, hslots]) rfl (by simp [hplain]))

theorem laysNode_grouped (hd : d.LaysTrees) : LaysNode more d.grouped := by
  intro c
  refine .steady steady_advance fun _ _ => ?_
  refine .next (.withReader (laysNode_expression hd _) fun _ => rfl) fun e _ => ?_
  exact .steady (steady_expectMark _) fun _ _ => .pure (.refl _)

theorem laysNode_superReference : LaysNode more superReference := by
  intro c
  refine .token (.pass fun _ => .kind ?_)
  split
  · exact .add [] rfl rfl .refl
  · exact .add [] rfl rfl .refl
  · exact .add [] rfl rfl .refl
  · exact .fail _

theorem laysNode_importReference : LaysNode more importReference := fun _ =>
  .token <| .pass fun _ => .still (still_isAtMark _) fun _ => .ite (.add [] rfl rfl .refl) (.fail _)

theorem laysNode_primary (hd : d.LaysTrees) : LaysNode (more + 1) d.primary := by
  intro c
  refine .token (.scanner (.ite (laysNode_functionExpression hd true _) ?_))
  refine .still still_isAtIdentifier fun found => .ite (laysNode_identifier _) ?_
  split
  · exact laysNode_literalKey _
  · exact laysNode_literalKey _
  · exact laysNode_literalKey _
  · exact laysNode_template hd false _
  · exact laysNode_template hd false _
  · exact laysNode_regularExpression _
  · exact laysNode_regularExpression _
  · exact laysNode_single rfl rfl _
  · exact laysNode_single rfl rfl _
  · exact laysNode_single rfl rfl _
  · exact laysNode_single rfl rfl _
  · exact laysNode_grouped hd _
  · exact laysNode_arrayLiteral hd _
  · exact laysNode_objectLiteral hd _
  · exact laysNode_functionExpression hd false _
  · exact laysNode_classExpression hd _
  · exact laysNode_superReference _
  · exact laysNode_importReference _
  · exact .fail _

/-!
## Accesses and calls
-/

theorem laysTurn_argument (hd : d.LaysTrees) : LaysTurn more d.argumentTurn := by
  intro c
  refine .still (still_isAtMark _) fun found => .ite (.pure (.refl _)) ?_
  exact .next (laysNode_spreadOrAssignment hd _) fun i _ => lays_beforeComma i _

theorem lays_arguments (hd : d.LaysTrees) :
    Lays more [] d.arguments fun arguments =>
      .mark arguments.2 :: rowOf (arguments.1.filterMap id) := by
  intro c
  refine .steady (steady_expectMark _) fun _ _ => ?_
  refine .next (laysList_repeated (laysTurn_argument hd) _ _) fun items _ => ?_
  exact .expect fun _ => .pure (by simp [List.filterMap_map])

/-- The start of an operand stays noted, as more may follow the access. -/
theorem lays_namedAccess (start : Nat) (object : NodeId) (isOptional inChain : Bool) :
    Lays more [.node object, .mark start] (namedAccess start object isOptional inChain)
      fun i => [.node i, .mark start] := fun _ =>
  .next (laysNode_memberName _) fun _ _ => .addEndingBehind [.node object] rfl rfl .refl

theorem lays_suffix? (hd : d.LaysTrees) (start : Nat) (allowCalls : Bool) (object : NodeId)
    (isOptional inChain : Bool) :
    Lays more [.node object, .mark start] (d.suffix? start allowCalls object isOptional inChain)
      fun extended => [.node (extended.getD object), .mark start] := by
  intro c
  have htemplate : LaysFrom more more c [.node object, .mark start] (do
      let text ← d.template true
      return some (← add (.taggedTemplate (some object) (some text)) start (← endOf text)))
      fun extended => [.node (extended.getD object), .mark start] := by
    refine .next (laysNode_template hd true _) fun text _ => .endOf fun stop => ?_
    exact .whole (.addBehind [.node text, .node object] rfl rfl .refl) fun i _ => .pure (.refl _)
  refine .kind ?_
  split
  · refine .ite (.fail _) (.steady steady_advance fun _ _ => ?_)
    exact .whole (lays_namedAccess start object _ _ _) fun i _ => .pure (.refl _)
  · refine .steady steady_advance fun _ _ => ?_
    refine .next (.withReader (laysNode_expression hd _) fun _ => rfl) fun key _ => ?_
    refine .expect fun _ => ?_
    exact .whole (.addBehind [.mark _, .node key, .node object] rfl rfl .refl) fun i _ =>
      .pure (.refl _)
  · refine .ite ?_ (.pure (.refl _))
    refine .next (lays_arguments hd _) fun (slots, stop) _ => ?_
    refine .whole (.addBehind (rowOf (slots.filterMap id) ++ [.node object]) ?_ (by simp) .refl)
      fun i _ => .pure (.refl _)
    simp [childrenOf, Node.slots]
  · exact .ite (.fail _) htemplate
  · exact .ite (.fail _) htemplate
  · refine .ite ?_ (.pure (.refl _))
    exact .whole (lays_namedAccess start object _ _ _) fun i _ => .pure (.refl _)

theorem lays_suffixes (hd : d.LaysTrees) (start : Nat) (allowCalls : Bool) (fuel : Nat)
    (object : NodeId) (inChain : Bool) :
    Lays more [.node object, .mark start] (d.suffixes start allowCalls fuel object inChain)
      fun i => [.node i] := by
  induction fuel generalizing object inChain with
  | zero => exact fun _ => .fail _
  | succ fuel ih =>
      intro c
      refine .still (still_isAtMark _) fun isOptional => .ite (.fail _) ?_
      refine .optionally steady_advance fun _ _ => ?_
      refine .whole (lays_suffix? hd _ _ _ _ _ _) fun extended _ => ?_
      cases extended with
      | none => exact .pure (by simp)
      | some i => exact ih i (inChain || isOptional) _

theorem lays_newTarget (start : Nat) :
    Lays more [.mark start] (newTarget start) fun i => [.node i] := by
  intro c
  refine .steady steady_advance fun _ _ => .token (.ite ?_ (.fail _))
  exact .pass fun _ => .add [.mark _] rfl rfl .refl

theorem laysNode_newCallee (hd : d.LaysTrees) : LaysNode (more + 1) d.newCallee := by
  intro c
  refine .offset (.still (still_isAt _) fun found => .ite ?_ ?_)
  · exact .next (hd.operand .newExpression _) fun callee _ => lays_suffixes hd _ _ _ callee _ _
  · exact .next (laysNode_primary hd _) fun callee _ => lays_suffixes hd _ _ _ callee _ _

theorem laysNode_newExpression (hd : d.LaysTrees) :
    LaysNode (more + 1) d.newExpressionProduction := by
  intro c
  refine .offset (.steady (steady_expect _) fun _ _ => ?_)
  refine .still (still_isAtMark _) fun found => .ite (lays_newTarget _ _) ?_
  refine .next (.deeper (laysNode_newCallee hd _)) fun callee _ => ?_
  refine .still (still_node? _) fun node => ?_
  split
  · exact .fail _
  · refine .still (still_isAtMark _) fun found => ?_
    extract_lets close
    have hclose : ∀ arguments : List Slot × Nat,
        Lays (more + 1) (.mark arguments.2 :: (rowOf (arguments.1.filterMap id) ++
          [.node callee, .mark c.token.start.offset])) (close arguments) fun i => [.node i] := by
      intro arguments _
      exact .add (rowOf (arguments.1.filterMap id) ++ [.node callee])
        (by simp [childrenOf, Node.slots]) (by simp) .refl
    refine .ite (.next (lays_arguments hd _) hclose) ?_
    exact .endOf fun stop => .chosen (hclose ([], stop) _)

theorem laysNode_leftHandSide (hd : d.LaysTrees) :
    LaysNode (more + 1) d.leftHandSideProduction := by
  intro c
  refine .offset (.still (still_isAt _) fun found => .ite ?_ ?_)
  · exact .next (laysNode_newExpression hd _) fun operand _ => lays_suffixes hd _ _ _ operand _ _
  · exact .next (laysNode_primary hd _) fun operand _ => lays_suffixes hd _ _ _ operand _ _

/-!
## Operators
-/

theorem laysNode_unaryAfter (hd : d.LaysTrees) : LaysNode (more + 1) d.unaryAfter := by
  intro c
  refine .offset (.next (laysNode_leftHandSide hd _) fun operand _ => ?_)
  refine .token (.ite ?_ (.pure (by simp)))
  refine .still (Pattern.still_isTargetAt _) fun found => .ite ?_ (.fail _)
  exact .pass fun _ => .add [.mark _, .node operand] rfl rfl .refl

theorem laysNode_unaryBefore (hd : d.LaysTrees) (operator : TokenKind) :
    LaysNode (more + 1) (d.unaryBefore operator) := by
  intro c
  refine .offset (.steady steady_advance fun _ _ => ?_)
  refine .next (.deeper (hd.operand .unary _)) fun operand _ => ?_
  refine .still (Pattern.still_isTargetAt _) fun found => .ite (.failAt _ _) ?_
  exact .addEnding [] rfl rfl .refl

theorem laysNode_unary (hd : d.LaysTrees) : LaysNode (more + 1) d.unaryProduction := by
  intro c
  refine .kind (.still still_isAtAwait fun found => .ite ?_ ?_)
  · refine .offset (.steady steady_advance fun _ _ => ?_)
    exact .next (.deeper (hd.operand .unary _)) fun operand _ => .addEnding [] rfl rfl .refl
  · exact .ite (laysNode_unaryBefore hd _ _) (laysNode_unaryAfter hd _)

theorem lays_operators (hd : d.LaysTrees) (start : Nat) (bound : Option Precedence)
    (afterUnary : Bool) (room : Nat) (left : NodeId) :
    Lays (more + 1) [.node left, .mark start] (d.operators start bound afterUnary room left)
      fun i => [.node i] := by
  induction room generalizing afterUnary left with
  | zero =>
      intro c
      unfold operators
      refine .still (still_operator? _) fun found => ?_
      split
      · exact .pure (by simp)
      · exact .ite (.fail _) (.fail _)
  | succ room ih =>
      intro c
      unfold operators
      refine .still (still_operator? _) fun found => ?_
      split
      · exact .pure (by simp)
      · refine .ite (.fail _) (.steady steady_advance fun _ _ => ?_)
        refine .next (.deeper (hd.operand (.binary _) _)) fun right _ => .endOf fun stop => ?_
        refine .whole (.addBehind [.node right, .node left] rfl rfl .refl) fun joined => ?_
        exact ih false joined

theorem laysNode_privateNameOperand : LaysNode more privateNameOperand := fun _ =>
  .scanner (.still .read fun _ => .ite (laysNode_privateName _) (.fail _))

theorem laysNode_binary (hd : d.LaysTrees) (bound : Option Precedence) :
    LaysNode (more + 1) (d.binaryProduction bound) := by
  intro c
  refine .offset (.kind (.still still_isAtAwait fun atAwait => ?_))
  refine .still (still_isAt _) fun found => .ite ?_ ?_
  · exact .next (laysNode_privateNameOperand _) fun left _ => lays_operators hd _ _ _ _ left _
  · exact .next (laysNode_unary hd _) fun left _ => lays_operators hd _ _ _ _ left _

theorem laysNode_conditional (hd : d.LaysTrees) : LaysNode (more + 1) d.conditional := by
  intro c
  refine .offset (.next (laysNode_binary hd none _) fun condition _ => ?_)
  refine .steady (steady_eatMark _) fun found _ => .ite ?_ (.pure (by simp))
  refine .next (.withReader (hd.assignment _) fun _ => rfl) fun whenTrue _ => ?_
  refine .steady (steady_expectMark _) fun _ _ => ?_
  refine .next (hd.assignment _) fun whenFalse _ => ?_
  exact .addEnding [.node whenTrue, .node condition] rfl rfl .refl

theorem laysNode_yieldExpression (hd : d.LaysTrees) : LaysNode more d.yieldExpression := by
  intro c
  have halone {delegate : Bool} {start stop : Nat} {c : Scanner} :
      LaysNodeFrom more c [.mark stop, .mark start] (add (.yield none delegate) start stop) :=
    .add [] rfl rfl .refl
  refine .token (.pass fun _ => .token (.ite halone ?_))
  refine .steady (steady_eatMark _) fun delegate _ => .kind (.ite ?_ halone)
  exact .next (hd.assignment _) fun argument _ => .addEnding [.mark _] rfl rfl .refl

theorem laysNode_arrowFunction (hd : d.LaysTrees) (isAsync : Bool) :
    LaysNode more (d.arrowFunction isAsync) := by
  intro c
  refine .offset (.optionally steady_advance fun _ _ => ?_)
  have hparameters : Lays more [] d.arrowParameters fun slots => rowOf (slots.filterMap id) := by
    intro c
    refine .still (still_isAtMark _) fun found => .ite (lays_parameters hd _) ?_
    exact .next (laysNode_identifier _) fun name _ => .pure (.refl _)
  have hparts : Lays more [] (do
      let parameters ← d.arrowParameters
      if (← token).lineBreakBefore then Parse.fail .lineBreakBeforeArrow
      else
        let _ ← expectMark .arrow
        let body ← if ← isAtMark .openBrace then d.functionBody else d.assignment
        return (parameters, body)) fun parts => .node parts.2 :: rowOf (parts.1.filterMap id) := by
    intro c
    refine .next (hparameters _) fun parameters _ => .token (.ite (.fail _) ?_)
    refine .steady (steady_expectMark _) fun _ _ => ?_
    refine .still (still_isAtMark _) fun found => .ite ?_ ?_
    · exact .next (.withReader (laysNode_block hd _) fun _ => rfl) fun body _ => .pure (by simp)
    · exact .next (hd.assignment _) fun body _ => .pure (by simp)
  refine .next (.withReader (hparts _) fun _ => rfl) fun (parameters, body) _ => ?_
  exact .addEnding (rowOf (parameters.filterMap id)) (by simp [childrenOf, Node.slots]) rfl .refl

theorem steady_assignmentTarget (left : NodeId) (operator : TokenKind) :
    Steady (assignmentTarget left operator) := by
  refine .keeps (fun _ => keeps_assignmentTarget left operator) ?_
  refine .bind (.still (still_node? _)) fun node => ?_
  split
  · exact .ite (Pattern.addsNoCollection_convert _) (.still (still_fail _))
  · exact .ite (Pattern.addsNoCollection_convert _) (.still (still_fail _))
  · exact .ite (.still (.pure ())) (.still (still_fail _))
  · exact .still (still_fail _)

theorem laysNode_assignment (hd : d.LaysTrees) : LaysNode (more + 1) d.assignmentProduction := by
  intro c
  refine .still .read fun ctx => .still (still_isAt _) fun atYield => ?_
  refine .ite (laysNode_yieldExpression hd _) (.still still_arrowStart? fun arrow => ?_)
  split
  · exact laysNode_arrowFunction hd _ _
  · refine .offset (.next (laysNode_conditional hd _) fun left _ => ?_)
    refine .kind (.ite ?_ (.pure (by simp)))
    refine .steady (steady_assignmentTarget left _) fun _ _ => ?_
    refine .steady steady_advance fun _ _ => ?_
    exact .next (hd.assignment _) fun right _ => .addEnding [.node left] rfl rfl .refl

/-!
## Variables
-/

theorem laysNode_declarator (hd : d.LaysTrees) : LaysNode more d.declarator := by
  intro c
  refine .offset (.next (hd.bindingTarget _) fun name _ => ?_)
  refine .steady (steady_eatMark _) fun found _ => .ite ?_ (.addEnding [] rfl rfl .refl)
  exact .next (hd.assignment _) fun value _ => .addEnding [.node name] rfl rfl .refl

theorem laysTurn_declarator (hd : d.LaysTrees) : LaysTurn more d.declaratorTurn := fun _ =>
  .next (laysNode_declarator hd _) fun i _ => lays_beforeComma i _

theorem laysNode_declarationList (hd : d.LaysTrees) : LaysNode more d.declarationList := by
  intro c
  refine .offset (.kind (.steady steady_advance fun _ _ => ?_))
  refine .next (laysList_repeated (laysTurn_declarator hd) _ _) fun declarators _ => ?_
  extract_lets close
  have hclose : ∀ stop,
      Lays more (.mark stop :: (rowOf declarators ++ [.mark c.token.start.offset])) (close stop)
        fun i => [.node i] := fun stop _ =>
    .add (rowOf declarators) (by simp [childrenOf, Node.slots, List.filterMap_map]) rfl .refl
  split
  · rename_i last hlast
    obtain ⟨earlier, _, hrow⟩ := rowOf_eq_cons hlast
    rw [hrow] at hclose ⊢
    exact .endOf fun stop => hclose stop _
  · rename_i hnone
    obtain rfl := List.getLast?_eq_none_iff.mp hnone
    exact .again (.chosen (hclose _ _))

theorem laysNode_variableStatement (hd : d.LaysTrees) : LaysNode more d.variableStatement := by
  intro c
  refine .next (laysNode_declarationList hd _) fun statement _ => ?_
  refine .still (still_checkDeclarations _) fun _ => ?_
  exact .steady steady_semicolon fun _ _ => .pure (.refl _)

/-!
## Conditions and loops
-/

theorem laysNode_parenthesized (hd : d.LaysTrees) : LaysNode more d.parenthesized := by
  intro c
  refine .steady (steady_expectMark _) fun _ _ => ?_
  refine .next (laysNode_expression hd _) fun e _ => ?_
  exact .steady (steady_expectMark _) fun _ _ => .pure (.refl _)

theorem laysNode_conditionalStatement (hd : d.LaysTrees) :
    LaysNode more d.conditionalStatement := by
  intro c
  refine .offset (.steady (steady_expect _) fun _ _ => ?_)
  refine .next (laysNode_parenthesized hd _) fun condition _ => ?_
  refine .next (hd.statement _) fun whenTrue _ => ?_
  refine .steady (steady_eat _) fun found _ => .ite ?_ ?_
  · refine .next (hd.statement _) fun whenFalse _ => ?_
    exact .addEnding [.node whenTrue, .node condition] rfl rfl .refl
  · exact .addEnding [.node condition] rfl rfl .refl

theorem laysNode_guarded (hd : d.LaysTrees) {form : GuardForm} (hform : form ≠ .doLoop)
    (word : Keyword) : LaysNode more (d.guarded form word) := by
  intro c
  refine .offset (.steady (steady_expect _) fun _ _ => ?_)
  refine .next (laysNode_parenthesized hd _) fun condition _ => ?_
  refine .next (hd.statement _) fun body _ => .addEnding [.node condition] ?_ rfl .refl
  cases form with
  | doLoop => contradiction
  | whileLoop | withObject => rfl

theorem laysNode_doLoop (hd : d.LaysTrees) : LaysNode more d.doLoop := by
  intro c
  refine .offset (.steady (steady_expect _) fun _ _ => ?_)
  refine .next (hd.statement _) fun body _ => ?_
  refine .steady (steady_expect _) fun _ _ => .steady (steady_expectMark _) fun _ _ => ?_
  refine .next (laysNode_expression hd _) fun condition _ => .expect fun _ => ?_
  refine .steady (steady_eatMark _) fun _ _ => ?_
  exact .add [.mark _, .node condition, .node body] rfl rfl .refl

theorem lays_loopInitializer (hd : d.LaysTrees) :
    Lays more [] d.loopInitializer fun slot => rowOf slot.toList := by
  intro c
  have hlist : Lays more [] (do return some (← d.declarationList)) fun slot : Slot =>
      rowOf slot.toList := fun _ =>
    .next (laysNode_declarationList hd _) fun i _ => .pure (.refl _)
  have hexpression : Lays more [] (do return some (← d.expression)) fun slot : Slot =>
      rowOf slot.toList := fun _ =>
    .next (laysNode_expression hd _) fun i _ => .pure (.refl _)
  refine .kind ?_
  split
  · exact .pure (.refl _)
  · exact hlist _
  · exact hlist _
  · exact .scanner (.ite (hlist _) (hexpression _))
  · exact hexpression _

theorem steady_checkIterationTarget (target : Slot) : Steady (checkIterationTarget target) := by
  refine .keeps (fun _ => keeps_checkIterationTarget target) ?_
  refine .bind (.still .get) fun state => ?_
  extract_lets forest bareDeclarator
  split
  · exact .ite (.still (.pure ())) (.still (still_fail _))
  · exact Pattern.addsNoCollection_convert _
  · exact Pattern.addsNoCollection_convert _
  · exact .ite (.still (.pure ())) (.still (still_fail _))
  · exact .still (still_fail _)

theorem lays_iteration (hd : d.LaysTrees) (start : Nat) (target : Slot) (form : IterationForm)
    (isAwait : Bool) :
    Lays more (rowOf target.toList ++ [.mark start]) (d.iteration start target form isAwait)
      fun i => [.node i] := by
  intro c
  refine .steady (steady_checkIterationTarget target) fun _ _ => ?_
  refine .steady steady_advance fun _ _ => ?_
  extract_lets close
  have hclose : ∀ subject,
      Lays more (.node subject :: (rowOf target.toList ++ [.mark start])) (close subject)
        fun i => [.node i] := by
    intro subject c
    refine .steady (steady_expectMark _) fun _ _ => ?_
    refine .next (hd.statement _) fun body _ => ?_
    refine .addEnding (.node subject :: rowOf target.toList) ?_ rfl .refl
    cases target <;> rfl
  split
  · exact .next (.withReader (hd.assignment _) fun _ => rfl) hclose
  · exact .next (.withReader (laysNode_expression hd _) fun _ => rfl) hclose

theorem lays_optionalExpression (hd : d.LaysTrees) (stop : Punctuator) :
    Lays more [] (d.optionalExpression stop) fun slot => rowOf slot.toList := by
  intro c
  refine .still (still_isAtMark _) fun found => .ite (.pure (.refl _)) ?_
  exact .next (.withReader (laysNode_expression hd _) fun _ => rfl) fun i _ => .pure (.refl _)

theorem lays_forLoop (hd : d.LaysTrees) (start : Nat) (initializer : Slot) :
    Lays more (rowOf initializer.toList ++ [.mark start]) (d.forLoop start initializer)
      fun i => [.node i] := by
  intro c
  unfold forLoop
  extract_lets close
  have hclose : ∀ u, Lays more (rowOf initializer.toList ++ [.mark start]) (close u)
      fun i => [.node i] := by
    intro u c
    refine .steady (steady_expectMark _) fun _ _ => ?_
    refine .next (lays_optionalExpression hd _ _) fun condition _ => ?_
    refine .steady (steady_expectMark _) fun _ _ => ?_
    refine .next (lays_optionalExpression hd _ _) fun increment _ => ?_
    refine .steady (steady_expectMark _) fun _ _ => ?_
    refine .next (hd.statement _) fun body _ => ?_
    refine .addEnding (rowOf increment.toList ++
      (rowOf condition.toList ++ rowOf initializer.toList)) ?_ (by simp) .refl
    cases initializer <;> cases condition <;> cases increment <;> rfl
  split
  · exact .still (still_checkDeclarations _) fun u => hclose u _
  · exact .chosen (hclose () _)

theorem laysNode_forStatement (hd : d.LaysTrees) : LaysNode more d.forStatement := by
  intro c
  refine .offset (.steady (steady_expect _) fun _ _ => ?_)
  refine .still still_isAtAwait fun isAwait => .optionally steady_advance fun _ _ => ?_
  refine .steady (steady_expectMark _) fun _ _ => ?_
  refine .next (.withReader (lays_loopInitializer hd _) fun _ => rfl) fun initializer _ => ?_
  refine .still (still_isAtWord _) fun atOf => .ite (lays_iteration hd ..) ?_
  refine .ite (.fail _) (.still (still_isAt _) fun atIn => ?_)
  exact .ite (lays_iteration hd ..) (lays_forLoop hd _ initializer _)

/-!
## Jumps
-/

theorem laysNode_returnStatement (hd : d.LaysTrees) : LaysNode more d.returnStatement := by
  intro c
  refine .token (.pass fun _ => .token (.ite ?_ ?_))
  · exact .steady steady_semicolon fun _ _ => .add [] rfl rfl .refl
  · refine .next (laysNode_expression hd _) fun value _ => .endOf fun stop => ?_
    exact .steady steady_semicolon fun _ _ => .add [.node value, .mark _] rfl rfl .refl

theorem laysNode_throwStatement (hd : d.LaysTrees) : LaysNode more d.throwStatement := by
  intro c
  refine .offset (.steady steady_advance fun _ _ => .token (.ite (.fail _) ?_))
  refine .next (laysNode_expression hd _) fun value _ => .endOf fun stop => ?_
  exact .steady steady_semicolon fun _ _ => .add [.node value] rfl rfl .refl

theorem laysNode_jump (form : JumpForm) : LaysNode more (jump form) := by
  intro c
  refine .token (.pass fun _ => .token (.still still_isAtIdentifier fun found => .ite ?_ ?_))
  · refine .next (laysNode_identifier _) fun label _ => .endOf fun stop => ?_
    exact .steady steady_semicolon fun _ _ => .add [.node label, .mark _] rfl rfl .refl
  · exact .steady steady_semicolon fun _ _ => .add [] rfl rfl .refl

/-!
## Exceptions
-/

theorem laysNode_catchClause (hd : d.LaysTrees) : LaysNode more d.catchClause := by
  intro c
  refine .offset (.steady steady_advance fun _ _ => .steady (steady_eatMark _) fun found _ => ?_)
  extract_lets close
  have hclose : ∀ binding : Slot,
      Lays more (rowOf binding.toList ++ [.mark c.token.start.offset]) (close binding)
        fun i => [.node i] := by
    intro binding _
    refine .next (laysNode_block hd _) fun block _ => .addEnding (rowOf binding.toList) ?_ rfl .refl
    cases binding <;> rfl
  refine .ite ?_ (.chosen (hclose none _))
  refine .next (hd.bindingTarget _) fun target _ => ?_
  exact .steady (steady_expectMark _) fun _ _ => .chosen (hclose (some target) _)

theorem laysNode_tryStatement (hd : d.LaysTrees) : LaysNode more d.tryStatement := by
  intro c
  refine .offset (.steady (steady_expect _) fun _ _ => ?_)
  refine .next (laysNode_block hd _) fun block _ => .still (still_isAt _) fun found => ?_
  extract_lets finish
  have hfinish : ∀ handler : Slot,
      Lays more (rowOf handler.toList ++ [.node block, .mark c.token.start.offset]) (finish handler)
        fun i => [.node i] := by
    intro handler c'
    refine .steady (steady_eat _) fun found _ => ?_
    extract_lets close
    have hclose : ∀ finalizer : Slot,
        Lays more (rowOf finalizer.toList ++
          (rowOf handler.toList ++ [.node block, .mark c.token.start.offset])) (close finalizer)
          fun i => [.node i] := by
      intro finalizer c'
      cases finalizer with
      | some last =>
          refine .addEnding (rowOf handler.toList ++ [.node block]) ?_ (by simp [rowOf]) .refl
          cases handler <;> rfl
      | none =>
          cases handler with
          | some last => exact .addEnding [.node block] rfl rfl .refl
          | none => exact .fail _
    refine .ite ?_ (.chosen (hclose none _))
    exact .next (laysNode_block hd _) fun finalizer _ => .chosen (hclose (some finalizer) _)
  refine .ite ?_ (.chosen (hfinish none _))
  exact .next (laysNode_catchClause hd _) fun handler _ => .chosen (hfinish (some handler) _)

/-!
## Switches
-/

theorem laysTurn_clauseStatement (hd : d.LaysTrees) : LaysTurn more d.clauseStatementTurn := by
  intro c
  refine .kind ?_
  split
  · exact .pure (.refl _)
  · exact .pure (.refl _)
  · exact .pure (.refl _)
  · exact .pure (.refl _)
  · exact .next (hd.statement _) fun i _ => .pure (.refl _)

theorem lays_clauseRest (hd : d.LaysTrees) (start : Nat) (test : Slot) :
    Lays more (rowOf test.toList ++ [.mark start]) (d.clauseRest start test)
      fun i => [.node i] := by
  intro c
  refine .expect fun _ => ?_
  refine .next (laysList_repeated (laysTurn_clauseStatement hd) _ _) fun statements _ => ?_
  extract_lets close
  have hclose : ∀ {places : List Piece} stop, nodesIn places = [] →
      Lays more
        (.mark stop :: (rowOf statements ++ (places ++ (rowOf test.toList ++ [.mark start]))))
        (close stop) fun i => [.node i] := by
    intro places stop hplaces _
    refine .add (rowOf statements ++ (places ++ rowOf test.toList)) ?_ (by simp) .refl
    cases test <;> simp [childrenOf, Node.slots, List.filterMap_map, hplaces]
  split
  · rename_i last hlast
    obtain ⟨earlier, _, hrow⟩ := rowOf_eq_cons hlast
    rw [hrow] at hclose ⊢
    exact .endOf fun stop => @hclose [.mark _, .mark _] stop rfl _
  · rename_i hnone
    obtain rfl := List.getLast?_eq_none_iff.mp hnone
    exact .again (.chosen (@hclose [.mark _, .mark _] _ rfl _))

theorem lays_clauses (hd : d.LaysTrees) (fuel : Nat) (hasDefault : Bool)
    (reversed : List NodeId) :
    Lays more (reversed.map .node) (d.clauses fuel hasDefault reversed) rowOf := by
  induction fuel generalizing hasDefault reversed with
  | zero => exact fun _ => .fail _
  | succ fuel ih =>
      intro c
      refine .offset (.kind ?_)
      split
      · exact .pure (by simp [rowOf])
      · refine .steady steady_advance fun _ _ => ?_
        refine .next (laysNode_expression hd _) fun test _ => ?_
        exact @LaysFrom.bind _ _ _ _ _ _ _ [.node test, .mark _] _ _ _
          (lays_clauseRest hd _ (some test) _) fun clause => ih _ (clause :: reversed)
      · refine .ite (.fail _) (.steady steady_advance fun _ _ => ?_)
        exact .take (lays_clauseRest hd _ none _) fun clause => ih _ (clause :: reversed)
      · exact .fail _

theorem laysNode_switchStatement (hd : d.LaysTrees) : LaysNode more d.switchStatement := by
  intro c
  refine .offset (.steady (steady_expect _) fun _ _ => ?_)
  refine .next (laysNode_parenthesized hd _) fun subject _ => ?_
  refine .steady (steady_expectMark _) fun _ _ => ?_
  refine .next (lays_clauses hd _ false [] _) fun clauses c => .expect fun _ => ?_
  exact .add (.mark c.token.start.offset :: (rowOf clauses ++ [.node subject]))
    (by simp [childrenOf, Node.slots, List.filterMap_map]) (by simp) .refl

/-!
## Statements
-/

theorem laysNode_expressionStatement (hd : d.LaysTrees) : LaysNode more d.expressionStatement := by
  intro c
  refine .offset (.next (laysNode_expression hd _) fun e _ => .endOf fun stop => ?_)
  exact .steady steady_semicolon fun _ _ => .add [.node e] rfl rfl .refl

theorem laysNode_labeledStatement (hd : d.LaysTrees) : LaysNode more d.labeledStatement := by
  intro c
  refine .offset (.next (laysNode_identifier _) fun label _ => ?_)
  refine .steady (steady_expectMark _) fun _ _ => ?_
  exact .next (hd.statement _) fun body _ => .addEnding [.node label] rfl rfl .refl

theorem laysNode_debuggerStatement : LaysNode more debuggerStatement := fun _ =>
  .token (.pass fun _ => .steady steady_semicolon fun _ _ => .add [] rfl rfl .refl)

theorem laysNode_otherStatement (hd : d.LaysTrees) : LaysNode more d.otherStatement := fun _ =>
  .still still_isAtIdentifier fun _ => .scanner <|
    .ite (laysNode_labeledStatement hd _) (laysNode_expressionStatement hd _)

theorem laysNode_statement (hd : d.LaysTrees) : LaysNode (more + 1) d.statementProduction := by
  intro c
  refine .scanner ?_
  split
  · exact laysNode_block hd _
  · exact laysNode_single rfl rfl _
  · exact laysNode_variableStatement hd _
  · exact laysNode_variableStatement hd _
  · exact .ite (laysNode_variableStatement hd _) (laysNode_otherStatement hd _)
  · exact laysNode_functionDeclaration hd false _
  · exact .ite (laysNode_functionDeclaration hd true _) (laysNode_otherStatement hd _)
  · exact laysNode_classDeclaration hd _
  · exact laysNode_conditionalStatement hd _
  · exact laysNode_forStatement hd _
  · exact laysNode_guarded hd (by decide) _ _
  · exact laysNode_doLoop hd _
  · exact laysNode_returnStatement hd _
  · exact laysNode_throwStatement hd _
  · exact laysNode_jump .«break» _
  · exact laysNode_jump .«continue» _
  · exact laysNode_tryStatement hd _
  · exact laysNode_switchStatement hd _
  · exact laysNode_guarded hd (by decide) _ _
  · exact laysNode_debuggerStatement _
  · exact .ite (laysNode_expressionStatement hd _) (.fail _)
  · exact .fail _
  · exact .fail _
  · exact laysNode_otherStatement hd _

theorem laysNode_production (hd : d.LaysTrees) (goal : Goal) (more : Nat)
    (hmore : goal.collections ≤ more) : LaysNode more (d.production goal) := by
  intro c
  cases goal with
  | statement => exact .deeper (laysNode_statement hd c)
  | assignment => exact .deeper (laysNode_assignment hd c)
  | binary bound => exact (laysNode_binary hd bound c).lift hmore
  | unary => exact (laysNode_unary hd c).lift hmore
  | leftHandSide => exact (laysNode_leftHandSide hd c).lift hmore
  | newExpression => exact (laysNode_newExpression hd c).lift hmore
  | bindingTarget => exact laysNode_bindingTarget hd c

end Descent

/-!
## Programs
-/

theorem laysTrees_parseGoal (fuel bound : Nat) : Descent.LaysTrees ⟨parseGoal fuel, bound⟩ := by
  induction fuel generalizing bound with
  | zero => exact fun goal more _ _ => .fail _
  | succ fuel ih => exact Descent.laysNode_production (ih fuel)

theorem laysTurn_program {d : Descent} {more : Nat} (hd : d.LaysTrees) :
    LaysTurn more (programTurn d) := fun _ =>
  .still (still_isAt _) fun _ => .ite (.pure (.refl _)) <|
    .next (hd.statement _) fun _ _ => .pure (.refl _)

namespace Program

variable {source : String} {p : Program}

/-- The root starts with the source and ends with its last token. The program is read at the depth
where nothing is nested yet. -/
theorem laid_parse (h : parse source = .ok p) :
    p.forest.Nested source ∧ p.forest.Shallow Limits.parseDepth p.root := by
  rcases run_of_parse h with ⟨state, hrun, hforest⟩
  rcases run_bind.mp hrun with ⟨_, s₁, hadvance, hrun⟩
  rcases run_bind.mp hrun with ⟨statements, s₂, hstatements, hrun⟩
  rcases run_bind.mp hrun with ⟨_, s₃, hcheck, hrun⟩
  rcases run_bind.mp hrun with ⟨stop, s₄, hstop, hadd⟩
  have hsafe := Scanner.safe_ofString source
  have hbegin : (Forest.empty).Row source 0 [.mark 0] :=
    Row.mark ⟨nested_empty source, nofun, .nil, nofun⟩ (Nat.le_refl 0) (Nat.le_refl 0)
      (OnText.start source).boundary
  have hbehind : Behind source Limits.parseDepth s₁ [] [.mark 0] := by
    obtain rfl := run_advance hadvance
    exact ⟨hsafe.scan, hbegin.raise (Nat.zero_le _), nofun⟩
  have hturn := @laysTurn_program _ 0 (laysTrees_parseGoal (parseFuel source) (parseFuel source))
  obtain ⟨hread, _⟩ := laysList_repeated hturn _ _ rfl (Nat.zero_le _) hbehind hstatements
  obtain rfl := still_checkShorthands hcheck
  cases hstop
  obtain ⟨hroot, hstate⟩ := Prod.mk.inj (Except.ok.inj hadd)
  rw [← hforest, ← hstate, ← hroot]
  have hend := hread.row.mark hread.safe.start_le (Nat.le_refl _) hread.safe.next.boundary
  have hchildren :
      childrenOf (.body .program (statements.map some)) = nodesIn (rowOf statements) := by
    simp [childrenOf, Node.slots, List.filterMap_map]
  refine ⟨hend.encloses_marks.nested_add hchildren, ?_⟩
  exact shallow_add_self (fun c hc => hread.shallow c (hchildren ▸ hc)) (Nat.le_refl _)

/-- Every node of a parsed program stands for a stretch of the source, which holds the stretches
of its children; walking over the tree, the places where nodes start never go back. -/
theorem parse_spans (h : parse source = .ok p) :
    (∀ i ∈ p.forest.preorder (some p.root),
      p.forest.startAt i ≤ p.forest.stopAt i ∧ p.forest.stopAt i ≤ source.utf8ByteSize ∧
      (⟨p.forest.startAt i⟩ : String.Pos.Raw).IsValid source ∧
      (⟨p.forest.stopAt i⟩ : String.Pos.Raw).IsValid source ∧
      ∀ c ∈ p.forest.children (some i),
        p.forest.startAt i ≤ p.forest.startAt c ∧ p.forest.stopAt c ≤ p.forest.stopAt i) ∧
    (p.forest.preorder (some p.root)).Pairwise fun i j =>
      p.forest.startAt i ≤ p.forest.startAt j := by
  have hgrown := grown_parse h
  have hnested := (laid_parse h).1
  have hroot := (hgrown.mem_iff.mp (List.mem_singleton_self _)).1
  constructor
  · intro i hi
    have hspan := hnested i (List.mem_range.mp (hgrown.preorder_perm.mem_iff.mp hi))
    exact ⟨hspan.le, hspan.stop.le, hspan.start.isValid, hspan.stop.isValid, hspan.within⟩
  · exact hnested.pairwise_preorder hgrown.wellFormed hroot

/-- A shorthand property, whose key and value share their text, and a group in parentheses. -/
theorem parse_spans_shorthand :
    ∃ p, parse "({a = é} = (b));" = .ok p ∧
      (∀ i ∈ p.forest.preorder (some p.root),
        p.forest.startAt i ≤ p.forest.stopAt i ∧
        p.forest.stopAt i ≤ "({a = é} = (b));".utf8ByteSize ∧
        (⟨p.forest.startAt i⟩ : String.Pos.Raw).IsValid "({a = é} = (b));" ∧
        (⟨p.forest.stopAt i⟩ : String.Pos.Raw).IsValid "({a = é} = (b));" ∧
        ∀ c ∈ p.forest.children (some i),
          p.forest.startAt i ≤ p.forest.startAt c ∧ p.forest.stopAt c ≤ p.forest.stopAt i) ∧
      (p.forest.preorder (some p.root)).Pairwise fun i j =>
        p.forest.startAt i ≤ p.forest.startAt j := by
  have hok : (parse "({a = é} = (b));").isOk = true := by decide +kernel
  cases h : parse "({a = é} = (b));" with
  | error e =>
      rw [h] at hok
      cases hok
  | ok p => exact ⟨p, rfl, parse_spans h⟩

/-- No path down the tree of a parsed program passes more literals of arrays and objects than the
limit on the depth allows. -/
theorem parse_collections (h : parse source = .ok p) {path : List NodeId}
    (hpath : (p.root :: path).IsChain fun parent child =>
      child ∈ p.forest.children (some parent)) :
    (p.root :: path).countP (fun i => p.forest.satisfies (some i) Node.isCollection) ≤
      Limits.parseDepth :=
  (laid_parse h).2.countP_le hpath

/-- An object in an array; the pattern on the path between them is not counted. -/
theorem parse_collections_pattern :
    ∃ p, parse "[function ([a = {}]) {}];" = .ok p ∧
      [p.root, 7, 6, 5, 3, 2, 1].IsChain
        (fun parent child => child ∈ p.forest.children (some parent)) ∧
      [p.root, 7, 6, 5, 3, 2, 1].countP
        (fun i => p.forest.satisfies (some i) Node.isCollection) = 2 ∧
      [p.root, 7, 6, 5, 3, 2, 1].countP
        (fun i => p.forest.satisfies (some i) Node.isCollection) ≤ Limits.parseDepth := by
  have hpath : (parse "[function ([a = {}]) {}];").toOption.any (fun p =>
      decide ([p.root, 7, 6, 5, 3, 2, 1].IsChain
        (fun parent child => child ∈ p.forest.children (some parent)) ∧
      [p.root, 7, 6, 5, 3, 2, 1].countP
        (fun i => p.forest.satisfies (some i) Node.isCollection) = 2)) = true := by
    decide +kernel
  cases h : parse "[function ([a = {}]) {}];" with
  | error e =>
      rw [h] at hpath
      cases hpath
  | ok p =>
      rw [h] at hpath
      have hchain := of_decide_eq_true hpath
      exact ⟨p, rfl, hchain.1, hchain.2, parse_collections h hchain.1⟩

end Program
end Untangle
