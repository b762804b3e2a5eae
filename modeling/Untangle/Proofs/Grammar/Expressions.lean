import Untangle.Grammar.Expression
import Untangle.Proofs.Grammar.Functions

/-!
# Expressions build trees
-/

namespace Untangle
namespace Descent

open Forest Parse Role

variable {d : Descent}

/-!
## Sequences
-/

theorem buildsItem_sequence (hd : d.BuildsTrees) : BuildsItem d.sequenceTurn := by
  refine .quiet (quiet_eatMark _) fun found => .ite ?_ (.pure rfl)
  exact .node (hd .assignment) fun i => .pure rfl

theorem buildsNode_expression (hd : d.BuildsTrees) : BuildsNode [] .plain d.expression := by
  refine .quiet quiet_offset fun start => ?_
  refine .node (hd .assignment) fun first => ?_
  refine .list (buildsList_repeated (buildsItem_sequence hd) _) fun others => ?_
  split
  · obtain rfl := List.getLast?_eq_none_iff.mp ‹others.getLast? = none›
    exact .pure rfl
  · exact .quiet (quiet_endOf _) fun stop => .addItems (first :: others) rfl rfl

/-!
## Literals
-/

theorem buildsNode_spread (hd : d.BuildsTrees) (role : Role)
    (hrole : ∀ i, role.roles (.operand .spread (some i)) = some [.plain]) :
    BuildsNode [] role d.spread := by
  refine .quiet quiet_offset fun start => ?_
  refine .quiet (quiet_expectMark _) fun _ => ?_
  refine .node (.withReader (hd .assignment)) fun value => ?_
  exact .addEnding rfl (hrole value)

theorem buildsNode_spreadOrAssignment (hd : d.BuildsTrees) :
    BuildsNode [] .plain d.spreadOrAssignment := by
  refine .quiet (quiet_isAtMark _) fun _ => .ite ?_ (.withReader (hd .assignment))
  exact buildsNode_spread hd _ fun _ => rfl

theorem buildsItem_array (hd : d.BuildsTrees) : BuildsItem d.arrayTurn := by
  refine .quiet quiet_kind fun k => ?_
  split
  · exact .pure rfl
  · exact .node (buildsNode_hole rfl) fun i => .pure rfl
  · exact .node (buildsNode_spreadOrAssignment hd) fun i => buildsItem_beforeComma _ i

theorem buildsNode_arrayLiteral (hd : d.BuildsTrees) : BuildsNode [] .plain d.arrayLiteral := by
  refine .quiet quiet_offset fun start => ?_
  refine .quiet (quiet_expectMark _) fun _ => ?_
  refine .list (buildsList_repeated (buildsItem_array hd) _) fun elements => ?_
  refine .quiet (quiet_expectMark _) fun stop => ?_
  exact .addItems elements rfl rfl

theorem buildsNode_methodProperty (hd : d.BuildsTrees) (start : Nat) (head : MethodHead)
    (key : NodeId) (computed : Bool) :
    BuildsNode [(key, .ofName computed (some key))] .literalEntry
      (d.methodProperty start head key computed) := by
  refine .node (buildsNode_methodFunction hd head) fun method => ?_
  refine .quiet (quiet_checkAccessor _ _) fun _ => ?_
  refine .addEnding rfl ?_
  cases head.accessor with
  | none => rfl
  | some isGetter => cases isGetter <;> rfl

theorem buildsNode_objectProperty (hd : d.BuildsTrees) :
    BuildsNode [] .literalEntry d.objectProperty := by
  refine .quiet quiet_offset fun start => ?_
  refine .quiet (quiet_isAtMark _) fun found => .ite (buildsNode_spread hd _ fun _ => rfl) ?_
  refine .quiet quiet_methodHead fun head => ?_
  refine .quiet quiet_isAtIdentifier fun isPlain => ?_
  refine .next (builds_propertyName hd false) fun (key, computed) roots hroots => ?_
  obtain rfl : roots = [(key, .ofName computed (some key))] := hroots
  refine .quiet quiet_kind fun k => ?_
  -- A shorthand property copies its name, so that key and value are two nodes.
  have hshorthand : BuildsNode ([] ++ [(key, .ofName computed (some key))]) .literalEntry (do
      let value ← copyIdentifier key
      if ← eatMark .assign then
        let value ← d.defaultValue value
        let stop ← endOf value
        add (.property .shorthand (some key) (some value) computed) start stop
      else
        let stop ← endOf value
        add (.property .shorthand (some key) (some value) computed) start stop) := by
    refine .node (buildsNode_copyIdentifier key) fun value => ?_
    refine .quiet (quiet_eatMark _) fun found => .ite ?_ ?_
    · refine .recast (.trans .leaf_free .leaf_target) ?_
      refine .wrap _ (buildsNode_defaultValue hd .shorthandValue value fun _ _ => rfl) ?_
      exact fun value => .addEnding rfl rfl
    · exact .recast .leaf_shorthandValue (.addEnding rfl rfl)
  split
  · exact buildsNode_methodProperty hd start head key computed
  · refine .ite (.quiet quiet_advance fun _ => ?_) (.fail _)
    exact .node (.withReader (hd .assignment)) fun value => .addEnding rfl rfl
  · exact .ite (.fail _) (.ite hshorthand (.fail _))
  · exact .ite (.fail _) (.ite hshorthand (.fail _))
  · exact .ite (.fail _) (.ite hshorthand (.fail _))
  · exact .fail _

theorem buildsTurn_object (hd : d.BuildsTrees) :
    BuildsTurn (fun _ => .literalEntry) d.objectTurn := by
  refine .quiet (quiet_isAtMark _) fun found => .ite (.pure rfl) ?_
  exact .node (buildsNode_objectProperty hd) fun i => buildsItem_beforeComma _ i

theorem buildsNode_objectLiteral (hd : d.BuildsTrees) : BuildsNode [] .plain d.objectLiteral := by
  refine .quiet quiet_offset fun start => ?_
  refine .quiet (quiet_expectMark _) fun _ => ?_
  refine .entries (buildsEntries_repeated (.refl _) (buildsTurn_object hd) _) fun properties => ?_
  refine .quiet (quiet_expectMark _) fun stop => ?_
  exact .addEntries properties rfl (congrArg some (lastly_const _ _).symm)

theorem buildsNode_regularExpression : BuildsNode [] .plain regularExpression := by
  refine .quiet quiet_offset fun start => .quiet quiet_scanner fun s => ?_
  extract_lets rescanned
  split
  · exact .failAt _ _
  · refine .quiet (quiet_install _) fun _ => .quiet quiet_advance fun _ => ?_
    exact .addFilled rfl rfl

/-!
## Templates
-/

theorem still_quasi (tagged : Bool) : Still (quasi tagged) :=
  .bind still_token fun _ => .ite (.ite (.pure _) (still_fail _)) (.pure _)

theorem quiet_quasi (tagged : Bool) : Quiet (quasi tagged) :=
  (still_quasi tagged).quiet

theorem builds_templateParts (hd : d.BuildsTrees) (tagged : Bool) (fuel : Nat)
    (quasis : List Quasi) (expressions : List NodeId) :
    Builds (plainly expressions.reverse) (d.templateParts tagged fuel quasis expressions)
      fun parts roots => roots = plainly parts.2 := by
  induction fuel generalizing quasis expressions with
  | zero => exact .fail _
  | succ fuel ih =>
      refine .quiet quiet_advance fun _ => ?_
      refine .node (.withReader (buildsNode_expression hd)) fun e => ?_
      refine .quiet quiet_kind fun k => ?_
      split
      · refine .quiet (quiet_quasi _) fun piece => ?_
        have hmore := ih (piece :: quasis) (e :: expressions)
        rwa [plainly_reverse_cons] at hmore
      · exact .quiet (quiet_quasi _) fun piece => .pure (plainly_reverse_cons e expressions).symm
      · exact .fail _

theorem buildsNode_template (hd : d.BuildsTrees) (tagged : Bool) :
    BuildsNode [] .plain (d.template tagged) := by
  refine .quiet quiet_offset fun start => ?_
  refine .quiet (quiet_quasi _) fun first => ?_
  refine .quiet (quiet_isAt _) fun found => ?_
  extract_lets close
  have hclose : ∀ parts, BuildsNode (plainly parts.2) .plain (close parts) := fun parts =>
    .quiet quiet_tokenEnd fun stop => .quiet quiet_advance fun _ => .addItems parts.2 rfl rfl
  refine .ite (.given (hclose ([first], []))) ?_
  refine .next (builds_templateParts hd tagged _ [first] []) fun parts roots hroots => ?_
  exact hroots ▸ hclose parts

/-!
## Primary expressions
-/

theorem buildsNode_single {n : Node Slot} (hslots : n.slots = [])
    (hroles : n.plainRoles = some []) :
    BuildsNode [] .plain (single n) := by
  refine .quiet quiet_token fun t => ?_
  refine .quiet quiet_advance fun _ => ?_
  exact .addFilled hslots hroles

theorem buildsNode_grouped (hd : d.BuildsTrees) : BuildsNode [] .plain d.grouped := by
  refine .quiet quiet_advance fun _ => ?_
  refine .node (.withReader (buildsNode_expression hd)) fun e => ?_
  refine .quiet (quiet_expectMark _) fun _ => ?_
  exact .pure rfl

theorem buildsNode_superReference : BuildsNode [] .plain superReference := by
  refine .quiet quiet_token fun t => ?_
  refine .quiet quiet_advance fun _ => ?_
  refine .quiet quiet_kind fun k => ?_
  split
  · exact .addFilled rfl rfl
  · exact .addFilled rfl rfl
  · exact .addFilled rfl rfl
  · exact .fail _

theorem buildsNode_importReference : BuildsNode [] .plain importReference := by
  refine .quiet quiet_token fun t => ?_
  refine .quiet quiet_advance fun _ => ?_
  exact .quiet (quiet_isAtMark _) fun found => .ite (.addFilled rfl rfl) (.fail _)

theorem buildsNode_primary (hd : d.BuildsTrees) : BuildsNode [] .plain d.primary := by
  refine .quiet quiet_token fun t => ?_
  refine .quiet quiet_scanner fun s => .ite (buildsNode_functionExpression hd true) ?_
  refine .quiet quiet_isAtIdentifier fun found =>
    .ite (.fits buildsNode_identifier .leaf_plain) ?_
  split
  · exact .fits buildsNode_literalKey .name_plain
  · exact .fits buildsNode_literalKey .name_plain
  · exact .fits buildsNode_literalKey .name_plain
  · exact buildsNode_template hd false
  · exact buildsNode_template hd false
  · exact buildsNode_regularExpression
  · exact buildsNode_regularExpression
  · exact buildsNode_single rfl rfl
  · exact buildsNode_single rfl rfl
  · exact buildsNode_single rfl rfl
  · exact buildsNode_single rfl rfl
  · exact buildsNode_grouped hd
  · exact buildsNode_arrayLiteral hd
  · exact buildsNode_objectLiteral hd
  · exact buildsNode_functionExpression hd false
  · exact buildsNode_classExpression hd
  · exact buildsNode_superReference
  · exact buildsNode_importReference
  · exact .fail _

/-!
## Accesses and calls
-/

theorem buildsItem_argument (hd : d.BuildsTrees) : BuildsItem d.argumentTurn := by
  refine .quiet (quiet_isAtMark _) fun found => .ite (.pure rfl) ?_
  exact .node (buildsNode_spreadOrAssignment hd) fun i => buildsItem_beforeComma _ i

theorem builds_arguments (hd : d.BuildsTrees) :
    Builds [] d.arguments fun arguments roots =>
      ∃ items : List NodeId, arguments.1 = items.map some ∧ roots = plainly items := by
  refine .quiet (quiet_expectMark _) fun _ => ?_
  refine .list (buildsList_repeated (buildsItem_argument hd) _) fun items => ?_
  refine .quiet (quiet_expectMark _) fun stop => ?_
  exact .pure ⟨items, rfl, rfl⟩

theorem buildsNode_namedAccess (start : Nat) (object : NodeId) (isOptional inChain : Bool) :
    BuildsNode [(object, .plain)] .plain (namedAccess start object isOptional inChain) :=
  .node buildsNode_memberName fun _ => .addEnding rfl rfl

/-- A suffix takes the operand it belongs to; without one the operand is left. -/
theorem builds_suffix? (hd : d.BuildsTrees) (start : Nat) (allowCalls : Bool) (object : NodeId)
    (isOptional inChain : Bool) :
    Builds [(object, .plain)] (d.suffix? start allowCalls object isOptional inChain)
      fun extended roots => roots = [(extended.getD object, .plain)] := by
  refine .quiet quiet_kind fun k => ?_
  split
  · refine .ite (.fail _) (.quiet quiet_advance fun _ => ?_)
    exact .whole .plain (buildsNode_namedAccess ..) fun i => .pure rfl
  · refine .quiet quiet_advance fun _ => ?_
    refine .node (.withReader (buildsNode_expression hd)) fun key => ?_
    refine .quiet (quiet_expectMark _) fun stop => ?_
    exact .whole .plain (.addFilled rfl rfl) fun i => .pure rfl
  · refine .ite ?_ (.pure rfl)
    refine .next (builds_arguments hd) fun (slots, stop) roots hslots => ?_
    rcases hslots with ⟨arguments, rfl, rfl⟩
    exact .whole .plain (.addItems (object :: arguments) rfl rfl) fun i => .pure rfl
  · refine .ite (.fail _) (.node (buildsNode_template hd true) fun text => ?_)
    exact .quiet (quiet_endOf _) fun stop => .whole .plain (.addFilled rfl rfl) fun i => .pure rfl
  · refine .ite (.fail _) (.node (buildsNode_template hd true) fun text => ?_)
    exact .quiet (quiet_endOf _) fun stop => .whole .plain (.addFilled rfl rfl) fun i => .pure rfl
  · refine .ite ?_ (.pure rfl)
    exact .whole .plain (buildsNode_namedAccess ..) fun i => .pure rfl

theorem buildsNode_suffixes (hd : d.BuildsTrees) (start : Nat) (allowCalls : Bool) (fuel : Nat)
    (object : NodeId) (inChain : Bool) :
    BuildsNode [(object, .plain)] .plain (d.suffixes start allowCalls fuel object inChain) := by
  induction fuel generalizing object inChain with
  | zero => exact .fail _
  | succ fuel ih =>
      refine .quiet (quiet_isAtMark _) fun isOptional => .ite (.fail _) ?_
      refine .optionally quiet_advance fun _ => ?_
      refine @Builds.bind _ _ _ _ [(object, .plain)] [] _ _ (builds_suffix? hd ..) ?_
      rintro extended _ rfl
      cases extended with
      | none => exact .pure rfl
      | some i => exact ih i (inChain || isOptional)

theorem buildsNode_newTarget (start : Nat) : BuildsNode [] .plain (newTarget start) := by
  refine .quiet quiet_advance fun _ => ?_
  refine .quiet quiet_token fun t => .ite ?_ (.fail _)
  exact .quiet quiet_advance fun _ => .addFilled rfl rfl

theorem buildsNode_newCallee (hd : d.BuildsTrees) : BuildsNode [] .plain d.newCallee := by
  refine .quiet quiet_offset fun start => ?_
  refine .quiet (quiet_isAt _) fun found => .ite ?_ ?_
  · exact .node (hd .newExpression) fun callee => buildsNode_suffixes hd ..
  · exact .node (buildsNode_primary hd) fun callee => buildsNode_suffixes hd ..

theorem buildsNode_newExpression (hd : d.BuildsTrees) :
    BuildsNode [] .plain d.newExpressionProduction := by
  refine .quiet quiet_offset fun start => ?_
  refine .quiet (quiet_expect _) fun _ => ?_
  refine .quiet (quiet_isAtMark _) fun found => .ite (buildsNode_newTarget start) ?_
  refine .node (.deeper (buildsNode_newCallee hd)) fun callee => ?_
  refine .quiet (quiet_node? _) fun node => ?_
  split
  · exact .fail _
  · refine .quiet (quiet_isAtMark _) fun found => ?_
    extract_lets close
    have hclose : ∀ (arguments : List NodeId) (stop : Nat),
        BuildsNode (plainly (callee :: arguments)) .plain (close (arguments.map some, stop)) :=
      fun arguments stop => .addItems (callee :: arguments) rfl rfl
    refine .ite ?_ ?_
    · refine .next (builds_arguments hd) fun (slots, stop) roots hslots => ?_
      rcases hslots with ⟨arguments, rfl, rfl⟩
      exact hclose arguments stop
    · exact .quiet (quiet_endOf _) fun stop => .given (hclose [] stop)

theorem buildsNode_leftHandSide (hd : d.BuildsTrees) :
    BuildsNode [] .plain d.leftHandSideProduction := by
  refine .quiet quiet_offset fun start => ?_
  refine .quiet (quiet_isAt _) fun found => .ite ?_ ?_
  · exact .node (buildsNode_newExpression hd) fun operand => buildsNode_suffixes hd ..
  · exact .node (buildsNode_primary hd) fun operand => buildsNode_suffixes hd ..

/-!
## Unary operators
-/

theorem buildsNode_unaryAfter (hd : d.BuildsTrees) : BuildsNode [] .plain d.unaryAfter := by
  refine .quiet quiet_offset fun start => ?_
  refine .node (buildsNode_leftHandSide hd) fun operand => ?_
  refine .quiet quiet_token fun t => ?_
  split
  · rename_i hupdate
    refine @Pattern.builds_isTargetAt _ [] _ _ _ fun found => ?_
    cases found with
    | false => exact .fail _
    | true =>
        have hoperator : t.kind.isUpdate = true := (Bool.and_eq_true_iff.mp hupdate).1
        refine .quiet quiet_advance fun _ => .addFilled rfl ?_
        exact congrArg (fun role => some [role]) (if_pos hoperator)
  · exact .pure rfl

theorem buildsNode_unaryBefore (hd : d.BuildsTrees) (operator : TokenKind) :
    BuildsNode [] .plain (d.unaryBefore operator) := by
  refine .quiet quiet_offset fun start => ?_
  refine .quiet quiet_advance fun _ => ?_
  refine .node (.deeper (hd .unary)) fun operand => ?_
  refine Pattern.builds_isTargetAt fun found => ?_
  have hadd : ∀ role : Role, (if operator.isUpdate then .leaf false else .plain) = role →
      BuildsNode ([] ++ [(operand, role)]) .plain
        (endOf operand >>= add (.unary .before operator (some operand)) start) :=
    fun role hrole => .addEnding rfl (congrArg (fun role => some [role]) hrole)
  cases found with
  | true =>
      refine .ite (.failAt _ _) ?_
      cases hoperator : operator.isUpdate with
      | true => exact hadd _ (if_pos hoperator)
      | false => exact .recast .leaf_plain (hadd _ (by simp [hoperator]))
  | false =>
      cases hoperator : operator.isUpdate with
      | true => exact .failAt _ _
      | false => exact hadd _ (by simp [hoperator])

theorem buildsNode_awaitExpression (hd : d.BuildsTrees) :
    BuildsNode [] .plain d.awaitExpression := by
  refine .quiet quiet_offset fun start => ?_
  refine .quiet quiet_advance fun _ => ?_
  exact .node (.deeper (hd .unary)) fun operand => .addEnding rfl rfl

theorem buildsNode_unary (hd : d.BuildsTrees) : BuildsNode [] .plain d.unaryProduction := by
  refine .quiet quiet_kind fun k => ?_
  refine .quiet quiet_isAtAwait fun found => .ite (buildsNode_awaitExpression hd) ?_
  exact .ite (buildsNode_unaryBefore hd k) (buildsNode_unaryAfter hd)

/-!
## Binary operators
-/

theorem buildsNode_privateNameOperand : BuildsNode [] .plain privateNameOperand := by
  refine .quiet quiet_scanner fun s => ?_
  exact .quiet .read fun ctx => .ite (.fits buildsNode_privateName .name_plain) (.fail _)

theorem still_operator? (bound : Option Precedence) : Still (operator? bound) := by
  refine .bind still_kind fun operator => .bind .read fun ctx => .ite (.pure _) ?_
  split
  · exact .pure _
  · exact .pure _

theorem quiet_operator? (bound : Option Precedence) : Quiet (operator? bound) :=
  (still_operator? bound).quiet

theorem buildsNode_operators (hd : d.BuildsTrees) (start : Nat) (bound : Option Precedence)
    (afterUnary : Bool) (room : Nat) (left : NodeId) :
    BuildsNode [(left, .plain)] .plain (d.operators start bound afterUnary room left) := by
  induction room generalizing afterUnary left with
  | zero =>
      unfold operators
      refine .quiet (quiet_operator? _) fun found => ?_
      split
      · exact .pure rfl
      · exact .ite (.fail _) (.fail _)
  | succ room ih =>
      unfold operators
      refine .quiet (quiet_operator? _) fun found => ?_
      split
      · exact .pure rfl
      · refine .ite (.fail _) (.quiet quiet_advance fun _ => ?_)
        refine .node (.deeper (hd (.binary _))) fun right => ?_
        refine .quiet (quiet_endOf _) fun stop => ?_
        refine .whole .plain (.addFilled rfl ?_) fun joined => ih false joined
        unfold binaryForm
        split <;> rfl

theorem buildsNode_binary (hd : d.BuildsTrees) (bound : Option Precedence) :
    BuildsNode [] .plain (d.binaryProduction bound) := by
  refine .quiet quiet_offset fun start => .quiet quiet_kind fun k => ?_
  refine .quiet quiet_isAtAwait fun atAwait => ?_
  refine .quiet (quiet_isAt _) fun found => .ite ?_ ?_
  · exact .node buildsNode_privateNameOperand fun left => buildsNode_operators hd ..
  · exact .node (buildsNode_unary hd) fun left => buildsNode_operators hd ..

/-!
## Conditionals, `yield` and arrow functions
-/

theorem buildsNode_conditional (hd : d.BuildsTrees) : BuildsNode [] .plain d.conditional := by
  refine .quiet quiet_offset fun start => ?_
  refine .node (buildsNode_binary hd none) fun condition => ?_
  refine .quiet (quiet_eatMark _) fun found => .ite ?_ (.pure rfl)
  refine .node (.withReader (hd .assignment)) fun whenTrue => ?_
  refine .quiet (quiet_expectMark _) fun _ => ?_
  exact .node (hd .assignment) fun whenFalse => .addEnding rfl rfl

theorem buildsNode_yieldExpression (hd : d.BuildsTrees) :
    BuildsNode [] .plain d.yieldExpression := by
  refine .quiet quiet_token fun t => ?_
  refine .quiet quiet_advance fun _ => ?_
  have halone {delegate : Bool} {start stop : Nat} :
      BuildsNode [] .plain (add (.yield none delegate) start stop) :=
    .addPlain rfl (fullEntries_none rfl) rfl
  refine .quiet quiet_token fun next => .ite halone ?_
  refine .quiet (quiet_eatMark _) fun delegate => .quiet quiet_kind fun k => .ite ?_ halone
  exact .node (hd .assignment) fun argument => .addEnding rfl rfl

theorem buildsSlots_arrowParameters (hd : d.BuildsTrees) :
    BuildsSlots .parameter d.arrowParameters := by
  refine .quiet (quiet_isAtMark _) fun found => .ite (buildsSlots_parameters hd) ?_
  have hname : BuildsNode [] (.parameter true) identifier :=
    .fits buildsNode_identifier (.trans .leaf_target (.trans .target_element .element_parameter))
  exact .node hname fun name => .pure ⟨[name], rfl, rfl⟩

theorem buildsNode_arrowFunction (hd : d.BuildsTrees) (isAsync : Bool) :
    BuildsNode [] .plain (d.arrowFunction isAsync) := by
  refine .quiet quiet_offset fun start => ?_
  refine .optionally quiet_advance fun _ => ?_
  refine @buildsNode_function _ _ none _ _ _ (.withReader ?_)
  refine .next (buildsSlots_arrowParameters hd) fun slots roots hslots => ?_
  rcases hslots with ⟨parameters, rfl, rfl⟩
  refine .quiet quiet_token fun t => .ite (.fail _) ?_
  refine .quiet (quiet_expectMark _) fun _ => ?_
  refine .quiet (quiet_isAtMark _) fun found => .ite ?_ ?_
  · exact .node (buildsNode_functionBody hd) fun body => .pure ⟨parameters, rfl, rfl⟩
  · exact .node (hd .assignment) fun body => .pure ⟨parameters, rfl, rfl⟩

theorem still_arrowStart? : Still arrowStart? := by
  refine .bind still_scanner fun s => .ite (.pure _) ?_
  exact .bind still_isAtIdentifier fun found => .ite (.pure _) (.ite (.pure _) (.pure _))

theorem quiet_arrowStart? : Quiet arrowStart? :=
  still_arrowStart?.quiet

/-!
## Assignments
-/

theorem builds_assignmentTarget (left : NodeId) (operator : TokenKind) :
    Builds [(left, .plain)] (assignmentTarget left operator)
      fun _ roots => roots = [(left, Node.assignedRole operator)] := by
  refine .ofFrom fun f rest hgrown => .atNode ?_
  have hplain := hgrown.roles (left, .plain) List.mem_cons_self
  have hliteral : operator == .mark .assign → From f (Pattern.convert left) fun _ g =>
      ∃ roots, roots = [(left, Node.assignedRole operator)] ∧ g.GrownAs (roots ++ rest) := by
    intro hassign
    rw [Node.assignedRole, if_pos hassign]
    exact (Pattern.converts_convert hgrown.grown.wellFormed hplain).mono fun _ g hg =>
      ⟨_, rfl, hgrown.becomes hg⟩
  split
  · exact .ite hliteral fun _ => .fail _
  · exact .ite hliteral fun _ => .fail _
  · rename_i n _ _ hn
    refine .ite (fun htarget => .pure ⟨_, rfl, hgrown.recastFirst ?_⟩) fun _ => .fail _
    exact (hplain.leaf_of_isTarget hn htarget).fits (.leaf_assigned operator)
  · exact .fail _

theorem buildsNode_assignment (hd : d.BuildsTrees) :
    BuildsNode [] .plain d.assignmentProduction := by
  refine .quiet .read fun ctx => .quiet (quiet_isAt _) fun atYield => ?_
  refine .ite (buildsNode_yieldExpression hd) (.quiet quiet_arrowStart? fun arrow => ?_)
  split
  · exact buildsNode_arrowFunction hd _
  · refine .quiet quiet_offset fun start => ?_
    refine .node (buildsNode_conditional hd) fun left => ?_
    refine .quiet quiet_kind fun operator => .ite ?_ (.pure rfl)
    refine @Builds.bind _ _ _ _ _ [] _ _ (builds_assignmentTarget left operator) ?_
    rintro _ _ rfl
    refine .quiet quiet_advance fun _ => ?_
    exact .node (hd .assignment) fun right => .addEnding rfl rfl

end Descent
end Untangle
