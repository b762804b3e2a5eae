import Untangle.Proofs.Grammar.Layers
import Untangle.Proofs.Grammar.Programs

/-!
# Parsed programs are layered

Statements are read by few productions, all of which put them below nodes that may surround
statements. Every other production puts together what it got for expressions and patterns.
-/

namespace Untangle

open Forest Parse

namespace Descent

variable {d : Descent} {given : List NodeId}

/-!
## Classes
-/

theorem layers_staticBlock (hd : d.LayersTrees) (start : Nat) :
    Layers given (d.staticBlock start) (fun i => [i]) .member .member := by
  refine .quiet (quiet_expectMark _) fun _ => ?_
  refine .bind (.anywhere (.withReader (layersOnly_repeated (fun _ => ?_) _ _)))
    fun statements => ?_
  · refine .quiet quiet_kind fun k => ?_
    split
    · exact .pure (List.nil_subset _)
    · exact .fail _
    · exact .bind hd.statement fun i => .pure (List.nil_subset _)
  · exact .quiet (quiet_expectMark _) fun stop => .addMember rfl rfl rfl

theorem layersNode_classField (hd : d.LayersTrees) (start : Nat) {key : NodeId}
    (computed isStatic : Bool) (hkey : key ∈ given) :
    LayersNode given (d.classField start key computed isStatic) := by
  refine .quiet (quiet_eatMark _) fun found => ?_
  extract_lets put
  have hput : ∀ (value : Slot) stop, LayersNode (value.toList ++ given) (put (value, stop)) := by
    intro value stop
    refine .quiet quiet_semicolon fun _ => .add rfl ?_
    cases value <;> simp [childrenOf, Node.slots, hkey]
  refine .ite ?_ ?_
  · refine .bind (.withReader (.withReader hd.assignment)) fun value => ?_
    exact .quiet (quiet_endOf _) fun stop => .chosen (hput (some value) stop)
  · exact .quiet (quiet_endOf _) fun stop => .chosen (hput none stop)

theorem layers_classMember (hd : d.LayersTrees) (hasConstructor : Bool) :
    Layers given (d.classMember hasConstructor) (fun member => [member.1]) .member .member := by
  refine .quiet quiet_offset fun start => ?_
  refine .quiet quiet_token fun t => ?_
  refine .quiet quiet_scanner fun s => ?_
  refine .optionally quiet_advance fun _ => ?_
  refine .quiet (quiet_isAtMark _) fun atBrace => .ite ?_ (.anywhere ?_)
  · exact .bind (layers_staticBlock hd start) fun block => .pure (by simp)
  · refine .quiet quiet_methodHead fun head => ?_
    refine .bind (layers_propertyName hd true) fun (key, computed) => ?_
    refine .quiet (quiet_isConstructorKey _) fun isConstructorName => ?_
    refine .quiet (quiet_isAtMark _) fun atParen => .ite (.ite (.failAt _ _) ?_) ?_
    · exact .bind (layersNode_classField hd start computed _ (by simp)) fun field =>
        .pure (by simp)
    · refine .ite (.failAt _ _) (.ite (.failAt _ _) ?_)
      refine .bind (layersNode_methodFunction hd head) fun value => ?_
      refine .quiet (quiet_checkAccessor _ _) fun _ => ?_
      refine .quiet (quiet_endOf _) fun stop => ?_
      refine .bind (.add rfl (by simp [childrenOf, Node.slots])) fun member => ?_
      exact .pure (by simp)

theorem layers_classMembers (hd : d.LayersTrees) (fuel : Nat) (hasConstructor : Bool)
    {reversed : List NodeId} (h : reversed ⊆ given) :
    Layers given (d.classMembers fuel hasConstructor reversed) id .member .member := by
  induction fuel generalizing given hasConstructor reversed with
  | zero => exact .fail _
  | succ fuel ih =>
      refine .quiet quiet_kind fun k => ?_
      split
      · exact .pure fun i hi => h (List.mem_reverse.mp hi)
      · exact .quiet quiet_advance fun _ => ih hasConstructor h
      · exact .fail _
      · exact .bind (layers_classMember hd _) fun member => ih _ (List.cons_subset_cons _ h)

theorem layers_classRest (hd : d.LayersTrees) (form : ClassForm) {name : Slot} (start : Nat)
    (hname : name.toList ⊆ given) :
    Layers given (d.classRest form name start)
      fun i => if form = .declaration then [] else [i] := by
  refine .quiet (quiet_eat _) fun found => ?_
  extract_lets close
  have hclose : ∀ heritage given, name.toList ++ heritage.toList ⊆ given →
      Layers given (close heritage) fun i => if form = .declaration then [] else [i] := by
    intro heritage given hsub
    refine .lift (.quiet (quiet_expectMark _) fun _ => ?_)
    refine .bind (layers_classMembers hd _ _ (List.nil_subset _)) fun members => ?_
    refine .quiet (quiet_expectMark _) fun stop => ?_
    have hchildren : childrenOf (.classLike form name heritage (members.map some)) ⊆
        members ++ given := by
      intro c hc
      have hc' : some c = name ∨ some c = heritage ∨ c ∈ members := by
        simpa [mem_childrenOf, Node.slots] using hc
      rcases hc' with rfl | rfl | hc'
      · exact List.mem_append_right _ (hsub (by simp))
      · exact List.mem_append_right _ (hsub (by simp))
      · exact List.mem_append_left _ hc'
    cases form <;> exact .addMembers rfl hchildren
  refine .ite ?_ (.chosen (hclose none given (by simpa using hname)))
  refine .bind (hd .leftHandSide given) fun heritage => .chosen (hclose (some heritage) _ ?_)
  intro i hi
  rcases List.mem_append.mp hi with hi | hi
  · exact List.mem_append_right _ (hname hi)
  · exact List.mem_append_left _ hi

theorem layersOnly_classDeclaration (hd : d.LayersTrees) :
    LayersOnly given d.classDeclaration := by
  refine .quiet quiet_offset fun start => ?_
  refine .quiet (quiet_expect _) fun _ => ?_
  refine .bind layersNode_identifier fun name => ?_
  exact layers_classRest hd .declaration start (by simp)

theorem layersNode_classExpression (hd : d.LayersTrees) : LayersNode given d.classExpression := by
  refine .quiet quiet_offset fun start => ?_
  refine .quiet (quiet_expect _) fun _ => ?_
  refine .quiet quiet_isAtIdentifier fun found => .ite ?_ ?_
  · exact .bind layersNode_identifier fun name =>
      .chosen (layers_classRest hd .expression start (by simp))
  · exact .chosen (layers_classRest hd .expression start (List.nil_subset _))

/-!
## Sequences and literals
-/

theorem layersNode_expression (hd : d.LayersTrees) : LayersNode given d.expression := by
  refine .quiet quiet_offset fun start => ?_
  refine .bind hd.assignment fun first => ?_
  refine .bind (layersList_repeated (fun _ => ?_) _ _) fun others => ?_
  · refine .quiet (quiet_eatMark _) fun found => .ite ?_ (.pure (List.nil_subset _))
    exact .bind hd.assignment fun i => .pure (by simp [Turn.items])
  · split
    · exact .pure (by simp)
    · exact .addEnding rfl (by simp [childrenOf, Node.slots, List.filterMap_map])

theorem layersNode_spread (hd : d.LayersTrees) : LayersNode given d.spread := by
  refine .quiet quiet_offset fun start => ?_
  refine .quiet (quiet_expectMark _) fun _ => ?_
  refine .bind (.withReader hd.assignment) fun value => ?_
  exact .addEnding rfl (by simp [childrenOf, Node.slots])

theorem layersNode_spreadOrAssignment (hd : d.LayersTrees) :
    LayersNode given d.spreadOrAssignment :=
  .quiet (quiet_isAtMark _) fun _ => .ite (layersNode_spread hd) (.withReader hd.assignment)

theorem layersTurn_array (hd : d.LayersTrees) : LayersTurn given d.arrayTurn := by
  refine .quiet quiet_kind fun k => ?_
  split
  · exact .pure (List.nil_subset _)
  · exact .bind layersNode_hole fun i => .pure (by simp [Turn.items])
  · exact .bind (layersNode_spreadOrAssignment hd) fun i => layers_beforeComma (by simp)

theorem layersNode_arrayLiteral (hd : d.LayersTrees) : LayersNode given d.arrayLiteral := by
  refine .quiet quiet_offset fun start => ?_
  refine .quiet (quiet_expectMark _) fun _ => ?_
  refine .bind (layersList_repeated (fun _ => layersTurn_array hd) _ _) fun elements => ?_
  refine .quiet (quiet_expectMark _) fun stop => ?_
  exact .add rfl (by simp [childrenOf, Node.slots, List.filterMap_map])

theorem layersNode_objectProperty (hd : d.LayersTrees) : LayersNode given d.objectProperty := by
  refine .quiet quiet_offset fun start => ?_
  refine .quiet (quiet_isAtMark _) fun found => .ite (layersNode_spread hd) ?_
  refine .quiet quiet_methodHead fun head => ?_
  refine .quiet quiet_isAtIdentifier fun isPlain => ?_
  refine .bind (layers_propertyName hd false) fun (key, computed) => ?_
  refine .quiet quiet_kind fun k => ?_
  have hproperty : ∀ {kind : PropertyKind} {value : NodeId} {given : List NodeId},
      key ∈ given → value ∈ given → LayersNode given (do
        add (.property kind (some key) (some value) computed) start (← endOf value)) := by
    intro kind value given hkey hvalue
    exact .addEnding rfl (by simp [childrenOf, Node.slots, hkey, hvalue])
  have hshorthand : LayersNode (key :: given) (do
      let value ← copyIdentifier key
      if ← eatMark .assign then
        let value ← d.defaultValue value
        let stop ← endOf value
        add (.property .shorthand (some key) (some value) computed) start stop
      else
        let stop ← endOf value
        add (.property .shorthand (some key) (some value) computed) start stop) := by
    refine .bind (layersNode_copyIdentifier key) fun value => ?_
    refine .quiet (quiet_eatMark _) fun found => .ite ?_ (hproperty (by simp) (by simp))
    refine .bind (layersNode_defaultValue hd (by simp)) fun value => ?_
    exact hproperty (by simp) (by simp)
  split
  · refine .bind (layersNode_methodFunction hd head) fun method => ?_
    exact .quiet (quiet_checkAccessor _ _) fun _ => hproperty (by simp) (by simp)
  · refine .ite (.quiet quiet_advance fun _ => ?_) (.fail _)
    exact .bind (.withReader hd.assignment) fun value => hproperty (by simp) (by simp)
  · exact .ite (.fail _) (.ite hshorthand (.fail _))
  · exact .ite (.fail _) (.ite hshorthand (.fail _))
  · exact .ite (.fail _) (.ite hshorthand (.fail _))
  · exact .fail _

theorem layersNode_objectLiteral (hd : d.LayersTrees) : LayersNode given d.objectLiteral := by
  refine .quiet quiet_offset fun start => ?_
  refine .quiet (quiet_expectMark _) fun _ => ?_
  refine .bind (layersList_repeated (fun _ => ?_) _ _) fun properties => ?_
  · refine .quiet (quiet_isAtMark _) fun found => .ite (.pure (List.nil_subset _)) ?_
    exact .bind (layersNode_objectProperty hd) fun i => layers_beforeComma (by simp)
  · refine .quiet (quiet_expectMark _) fun stop => ?_
    exact .add rfl (by simp [childrenOf, Node.slots, List.filterMap_map])

theorem layersNode_regularExpression : LayersNode given regularExpression := by
  refine .quiet quiet_offset fun start => .quiet quiet_scanner fun s => ?_
  extract_lets rescanned
  split
  · exact .failAt _ _
  · refine .quiet (quiet_install _) fun _ => .quiet quiet_advance fun _ => ?_
    exact .add rfl (List.nil_subset _)

/-!
## Templates
-/

theorem layers_templateParts (hd : d.LayersTrees) (tagged : Bool) (fuel : Nat)
    (quasis : List Quasi) {expressions : List NodeId} (h : expressions ⊆ given) :
    Layers given (d.templateParts tagged fuel quasis expressions) Prod.snd := by
  induction fuel generalizing quasis expressions given with
  | zero => exact .fail _
  | succ fuel ih =>
      refine .quiet quiet_advance fun _ => ?_
      refine .bind (.withReader (layersNode_expression hd)) fun e => ?_
      refine .quiet quiet_kind fun k => ?_
      have hsub : e :: expressions ⊆ [e] ++ given := List.cons_subset_cons e h
      split
      · exact .quiet (quiet_quasi _) fun piece => ih (piece :: quasis) hsub
      · refine .quiet (quiet_quasi _) fun piece => .pure fun i hi => ?_
        exact hsub (List.mem_reverse.mp hi)
      · exact .fail _

theorem layersNode_template (hd : d.LayersTrees) (tagged : Bool) :
    LayersNode given (d.template tagged) := by
  refine .quiet quiet_offset fun start => ?_
  refine .quiet (quiet_quasi _) fun first => ?_
  refine .quiet (quiet_isAt _) fun found => ?_
  extract_lets close
  have hclose : ∀ parts : List Quasi × List NodeId, LayersNode (parts.2 ++ given) (close parts) := by
    intro parts
    refine .quiet quiet_tokenEnd fun stop => .quiet quiet_advance fun _ => ?_
    exact .add rfl (by simp [childrenOf, Node.slots, List.filterMap_map])
  refine .ite (.chosen (hclose ([first], []))) ?_
  exact .bind (layers_templateParts hd tagged _ [first] (List.nil_subset _)) hclose

/-!
## Primary expressions
-/

theorem layersNode_single {n : Node Slot} (hlevel : n.isStatementLevel = false)
    (hslots : n.slots = []) : LayersNode given (single n) := by
  refine .quiet quiet_token fun t => ?_
  refine .quiet quiet_advance fun _ => ?_
  exact .add hlevel (by simp [childrenOf, hslots])

theorem layersNode_grouped (hd : d.LayersTrees) : LayersNode given d.grouped := by
  refine .quiet quiet_advance fun _ => ?_
  refine .bind (.withReader (layersNode_expression hd)) fun e => ?_
  exact .quiet (quiet_expectMark _) fun _ => .pure (by simp)

theorem layersNode_superReference : LayersNode given superReference := by
  refine .quiet quiet_token fun t => ?_
  refine .quiet quiet_advance fun _ => ?_
  refine .quiet quiet_kind fun k => ?_
  split
  · exact .add rfl (List.nil_subset _)
  · exact .add rfl (List.nil_subset _)
  · exact .add rfl (List.nil_subset _)
  · exact .fail _

theorem layersNode_importReference : LayersNode given importReference := by
  refine .quiet quiet_token fun t => ?_
  refine .quiet quiet_advance fun _ => ?_
  exact .quiet (quiet_isAtMark _) fun found => .ite (.add rfl (List.nil_subset _)) (.fail _)

theorem layersNode_primary (hd : d.LayersTrees) : LayersNode given d.primary := by
  refine .quiet quiet_token fun t => ?_
  refine .quiet quiet_scanner fun s => .ite (layersNode_functionExpression hd true) ?_
  refine .quiet quiet_isAtIdentifier fun found => .ite layersNode_identifier ?_
  split
  · exact layersNode_literalKey
  · exact layersNode_literalKey
  · exact layersNode_literalKey
  · exact layersNode_template hd false
  · exact layersNode_template hd false
  · exact layersNode_regularExpression
  · exact layersNode_regularExpression
  · exact layersNode_single rfl rfl
  · exact layersNode_single rfl rfl
  · exact layersNode_single rfl rfl
  · exact layersNode_single rfl rfl
  · exact layersNode_grouped hd
  · exact layersNode_arrayLiteral hd
  · exact layersNode_objectLiteral hd
  · exact layersNode_functionExpression hd false
  · exact layersNode_classExpression hd
  · exact layersNode_superReference
  · exact layersNode_importReference
  · exact .fail _

/-!
## Accesses and calls
-/

theorem layers_arguments (hd : d.LayersTrees) :
    Layers given d.arguments fun arguments => arguments.1.filterMap id := by
  refine .quiet (quiet_expectMark _) fun _ => ?_
  refine .bind (layersList_repeated (fun _ => ?_) _ _) fun items => ?_
  · refine .quiet (quiet_isAtMark _) fun found => .ite (.pure (List.nil_subset _)) ?_
    exact .bind (layersNode_spreadOrAssignment hd) fun i => layers_beforeComma (by simp)
  · refine .quiet (quiet_expectMark _) fun stop => ?_
    exact .pure (by simp [List.filterMap_map])

theorem layersNode_namedAccess (start : Nat) {object : NodeId} (isOptional inChain : Bool)
    (h : object ∈ given) : LayersNode given (namedAccess start object isOptional inChain) :=
  .bind layersNode_memberName fun _ => .addEnding rfl (by simp [childrenOf, Node.slots, h])

theorem layers_suffix? (hd : d.LayersTrees) (start : Nat) (allowCalls : Bool) {object : NodeId}
    (isOptional inChain : Bool) (h : object ∈ given) :
    Layers given (d.suffix? start allowCalls object isOptional inChain) Option.toList := by
  have htemplate : LayersNode given (do
      let text ← d.template true
      add (.taggedTemplate (some object) (some text)) start (← endOf text)) :=
    .bind (layersNode_template hd true) fun text =>
      .addEnding rfl (by simp [childrenOf, Node.slots, h])
  have hanswer : ∀ {i : NodeId} {given : List NodeId}, Layers (i :: given)
      (Pure.pure (some i) : Parse (Option NodeId)) Option.toList := by
    intro i given
    exact .pure (by simp)
  refine .quiet quiet_kind fun k => ?_
  split
  · refine .ite (.fail _) (.quiet quiet_advance fun _ => ?_)
    exact .bind (layersNode_namedAccess start _ _ h) fun i => hanswer
  · refine .quiet quiet_advance fun _ => ?_
    refine .bind (.withReader (layersNode_expression hd)) fun key => ?_
    refine .quiet (quiet_expectMark _) fun stop => ?_
    exact .bind (.add rfl (by simp [childrenOf, Node.slots, h])) fun i => hanswer
  · refine .ite ?_ (.pure (List.nil_subset _))
    refine .bind (layers_arguments hd) fun answer => ?_
    rcases answer with ⟨slots, stop⟩
    exact .bind (.add rfl (by simp [childrenOf, Node.slots, h])) fun i => hanswer
  · refine .ite (.fail _) (.bind (layersNode_template hd true) fun text => ?_)
    refine .quiet (quiet_endOf _) fun stop => ?_
    exact .bind (.add rfl (by simp [childrenOf, Node.slots, h])) fun i => hanswer
  · refine .ite (.fail _) (.bind (layersNode_template hd true) fun text => ?_)
    refine .quiet (quiet_endOf _) fun stop => ?_
    exact .bind (.add rfl (by simp [childrenOf, Node.slots, h])) fun i => hanswer
  · refine .ite ?_ (.pure (List.nil_subset _))
    exact .bind (layersNode_namedAccess start _ _ h) fun i => hanswer

theorem layersNode_suffixes (hd : d.LayersTrees) (start : Nat) (allowCalls : Bool) (fuel : Nat)
    {object : NodeId} (inChain : Bool) (h : object ∈ given) :
    LayersNode given (d.suffixes start allowCalls fuel object inChain) := by
  induction fuel generalizing object inChain given with
  | zero => exact .fail _
  | succ fuel ih =>
      refine .quiet (quiet_isAtMark _) fun isOptional => .ite (.fail _) ?_
      refine .optionally quiet_advance fun _ => ?_
      refine .bind (layers_suffix? hd _ _ _ _ h) fun extended => ?_
      cases extended with
      | none => exact .pure (by simp [h])
      | some i => exact ih (inChain || isOptional) (by simp)

theorem layersNode_newTarget (start : Nat) : LayersNode given (newTarget start) := by
  refine .quiet quiet_advance fun _ => ?_
  refine .quiet quiet_token fun t => .ite ?_ (.fail _)
  exact .quiet quiet_advance fun _ => .add rfl (List.nil_subset _)

theorem layersNode_newCallee (hd : d.LayersTrees) : LayersNode given d.newCallee := by
  refine .quiet quiet_offset fun start => ?_
  refine .quiet (quiet_isAt _) fun found => .ite ?_ ?_
  · exact .bind (hd .newExpression given) fun callee => layersNode_suffixes hd _ _ _ _ (by simp)
  · exact .bind (layersNode_primary hd) fun callee => layersNode_suffixes hd _ _ _ _ (by simp)

theorem layersNode_newExpression (hd : d.LayersTrees) :
    LayersNode given d.newExpressionProduction := by
  refine .quiet quiet_offset fun start => ?_
  refine .quiet (quiet_expect _) fun _ => ?_
  refine .quiet (quiet_isAtMark _) fun found => .ite (layersNode_newTarget start) ?_
  refine .bind (.deeper (layersNode_newCallee hd)) fun callee => ?_
  refine .quiet (quiet_node? _) fun node => ?_
  split
  · exact .fail _
  · refine .quiet (quiet_isAtMark _) fun found => ?_
    extract_lets close
    have hclose : ∀ arguments : List Slot × Nat,
        LayersNode (arguments.1.filterMap id ++ ([callee] ++ given)) (close arguments) :=
      fun arguments => .add rfl (by simp [childrenOf, Node.slots])
    refine .ite (.bind (layers_arguments hd) hclose) ?_
    exact .quiet (quiet_endOf _) fun stop => .chosen (hclose ([], stop))

theorem layersNode_leftHandSide (hd : d.LayersTrees) :
    LayersNode given d.leftHandSideProduction := by
  refine .quiet quiet_offset fun start => ?_
  refine .quiet (quiet_isAt _) fun found => .ite ?_ ?_
  · exact .bind (layersNode_newExpression hd) fun operand =>
      layersNode_suffixes hd _ _ _ _ (by simp)
  · exact .bind (layersNode_primary hd) fun operand => layersNode_suffixes hd _ _ _ _ (by simp)

/-!
## Operators
-/

theorem layersNode_unaryAfter (hd : d.LayersTrees) : LayersNode given d.unaryAfter := by
  refine .quiet quiet_offset fun start => ?_
  refine .bind (layersNode_leftHandSide hd) fun operand => ?_
  refine .quiet quiet_token fun t => .ite ?_ (.pure (by simp))
  refine .quiet (Pattern.quiet_isTargetAt _) fun found => .ite ?_ (.fail _)
  exact .quiet quiet_advance fun _ => .add rfl (by simp [childrenOf, Node.slots])

theorem layersNode_unaryBefore (hd : d.LayersTrees) (operator : TokenKind) :
    LayersNode given (d.unaryBefore operator) := by
  refine .quiet quiet_offset fun start => ?_
  refine .quiet quiet_advance fun _ => ?_
  refine .bind (.deeper (hd .unary given)) fun operand => ?_
  refine .quiet (Pattern.quiet_isTargetAt _) fun found => .ite (.failAt _ _) ?_
  exact .addEnding rfl (by simp [childrenOf, Node.slots])

theorem layersNode_unary (hd : d.LayersTrees) : LayersNode given d.unaryProduction := by
  refine .quiet quiet_kind fun k => ?_
  refine .quiet quiet_isAtAwait fun found => .ite ?_ ?_
  · refine .quiet quiet_offset fun start => .quiet quiet_advance fun _ => ?_
    refine .bind (.deeper (hd .unary given)) fun operand => ?_
    exact .addEnding rfl (by simp [childrenOf, Node.slots])
  · exact .ite (layersNode_unaryBefore hd k) (layersNode_unaryAfter hd)

theorem layersNode_operators (hd : d.LayersTrees) (start : Nat) (bound : Option Precedence)
    (afterUnary : Bool) (room : Nat) {left : NodeId} (h : left ∈ given) :
    LayersNode given (d.operators start bound afterUnary room left) := by
  induction room generalizing afterUnary left given with
  | zero =>
      unfold operators
      refine .quiet (quiet_operator? _) fun found => ?_
      split
      · exact .pure (by simp [h])
      · exact .ite (.fail _) (.fail _)
  | succ room ih =>
      unfold operators
      refine .quiet (quiet_operator? _) fun found => ?_
      split
      · exact .pure (by simp [h])
      · refine .ite (.fail _) (.quiet quiet_advance fun _ => ?_)
        refine .bind (.deeper (hd (.binary _) given)) fun right => ?_
        refine .quiet (quiet_endOf _) fun stop => ?_
        refine .bind (.add rfl (by simp [childrenOf, Node.slots, h])) fun joined => ?_
        exact ih false (by simp)

theorem layersNode_privateNameOperand : LayersNode given privateNameOperand := by
  refine .quiet quiet_scanner fun s => ?_
  exact .quiet .read fun ctx => .ite layersNode_privateName (.fail _)

theorem layersNode_binary (hd : d.LayersTrees) (bound : Option Precedence) :
    LayersNode given (d.binaryProduction bound) := by
  refine .quiet quiet_offset fun start => .quiet quiet_kind fun k => ?_
  refine .quiet quiet_isAtAwait fun atAwait => ?_
  refine .quiet (quiet_isAt _) fun found => .ite ?_ ?_
  · exact .bind layersNode_privateNameOperand fun left =>
      layersNode_operators hd _ _ _ _ (by simp)
  · exact .bind (layersNode_unary hd) fun left => layersNode_operators hd _ _ _ _ (by simp)

theorem layersNode_conditional (hd : d.LayersTrees) : LayersNode given d.conditional := by
  refine .quiet quiet_offset fun start => ?_
  refine .bind (layersNode_binary hd none) fun condition => ?_
  refine .quiet (quiet_eatMark _) fun found => .ite ?_ (.pure (by simp))
  refine .bind (.withReader hd.assignment) fun whenTrue => ?_
  refine .quiet (quiet_expectMark _) fun _ => ?_
  refine .bind hd.assignment fun whenFalse => ?_
  exact .addEnding rfl (by simp [childrenOf, Node.slots])

theorem layersNode_yieldExpression (hd : d.LayersTrees) : LayersNode given d.yieldExpression := by
  refine .quiet quiet_token fun t => ?_
  refine .quiet quiet_advance fun _ => ?_
  have halone {delegate : Bool} {start stop : Nat} :
      LayersNode given (add (.yield none delegate) start stop) :=
    .add rfl (List.nil_subset _)
  refine .quiet quiet_token fun next => .ite halone ?_
  refine .quiet (quiet_eatMark _) fun delegate => .quiet quiet_kind fun k => .ite ?_ halone
  refine .bind hd.assignment fun argument => ?_
  exact .addEnding rfl (by simp [childrenOf, Node.slots])

theorem layersNode_arrowFunction (hd : d.LayersTrees) (isAsync : Bool) :
    LayersNode given (d.arrowFunction isAsync) := by
  refine .quiet quiet_offset fun start => ?_
  refine .optionally quiet_advance fun _ => ?_
  refine @Layers.bind _ _ _ _ _ (fun _ => []) _ _ _ (.withReader ?_) fun (parameters, body) => ?_
  · refine @Layers.bind _ _ _ _ _ (fun _ => []) _ _ _ ?_ fun parameters => ?_
    · refine .quiet (quiet_isAtMark _) fun found => .ite (layersOnly_parameters hd) ?_
      exact .bind layersNode_identifier fun name => .pure (List.nil_subset _)
    · refine .quiet quiet_token fun t => .ite (.fail _) ?_
      refine .quiet (quiet_expectMark _) fun _ => ?_
      refine .quiet (quiet_isAtMark _) fun found => .ite ?_ ?_
      · exact .bind (.withReader (layersOnly_block hd)) fun body => .pure (List.nil_subset _)
      · exact .bind hd.assignment fun body => .pure (List.nil_subset _)
  · exact .quiet (quiet_endOf _) fun stop => .addAny (.inl ⟨rfl, rfl⟩)

theorem keeps_assignmentTarget {f : Forest} (left : NodeId) (operator : TokenKind) :
    Keeps f (assignmentTarget left operator) := by
  refine .bind (.still (still_node? _)) fun node => ?_
  split
  · exact .ite (Pattern.keeps_convert left) (.still (still_fail _))
  · exact .ite (Pattern.keeps_convert left) (.still (still_fail _))
  · exact .ite (.still (.pure ())) (.still (still_fail _))
  · exact .still (still_fail _)

theorem layersNode_assignment (hd : d.LayersTrees) : LayersNode given d.assignmentProduction := by
  refine .quiet .read fun ctx => .quiet (quiet_isAt _) fun atYield => ?_
  refine .ite (layersNode_yieldExpression hd) (.quiet quiet_arrowStart? fun arrow => ?_)
  split
  · exact layersNode_arrowFunction hd _
  · refine .quiet quiet_offset fun start => ?_
    refine .bind (layersNode_conditional hd) fun left => ?_
    refine .quiet quiet_kind fun operator => .ite ?_ (.pure (by simp))
    refine .reshape (fun _ => keeps_assignmentTarget left operator) fun _ => ?_
    refine .quiet quiet_advance fun _ => ?_
    refine .bind hd.assignment fun right => ?_
    exact .addEnding rfl (by simp [childrenOf, Node.slots])

/-!
## Variables
-/

theorem layersOnly_declarator (hd : d.LayersTrees) : LayersOnly given d.declarator := by
  refine .quiet quiet_offset fun start => ?_
  refine .bind hd.bindingTarget fun name => ?_
  refine .quiet (quiet_eatMark _) fun found => .ite ?_ ?_
  · refine .bind hd.assignment fun value => .quiet (quiet_endOf _) fun stop => ?_
    exact .addBelow (by simp [childrenOf, Node.slots])
  · refine .quiet (quiet_endOf _) fun stop => ?_
    exact .addBelow (by simp [childrenOf, Node.slots])

theorem layersOnly_declarationList (hd : d.LayersTrees) :
    LayersOnly given d.declarationList := by
  refine .quiet quiet_offset fun start => .quiet quiet_kind fun k => ?_
  refine .quiet quiet_advance fun _ => ?_
  refine .bind (layersOnly_repeated (fun _ => ?_) _ _) fun declarators => ?_
  · exact .bind (layersOnly_declarator hd) layersOnly_beforeComma
  · extract_lets close
    have hclose : ∀ stop, LayersOnly given (close stop) := fun stop => .addAround rfl rfl
    split
    · exact .quiet (quiet_endOf _) fun stop => hclose stop
    · exact .chosen (hclose start)

theorem layersOnly_variableStatement (hd : d.LayersTrees) :
    LayersOnly given d.variableStatement := by
  refine .bind (layersOnly_declarationList hd) fun statement => ?_
  refine .quiet (quiet_checkDeclarations _) fun _ => ?_
  exact .quiet quiet_semicolon fun _ => .pure (List.nil_subset _)

/-!
## Conditions and loops
-/

theorem layersNode_parenthesized (hd : d.LayersTrees) : LayersNode given d.parenthesized := by
  refine .quiet (quiet_expectMark _) fun _ => ?_
  refine .bind (layersNode_expression hd) fun e => ?_
  exact .quiet (quiet_expectMark _) fun _ => .pure (by simp)

theorem layersOnly_conditionalStatement (hd : d.LayersTrees) :
    LayersOnly given d.conditionalStatement := by
  refine .quiet quiet_offset fun start => ?_
  refine .quiet (quiet_expect _) fun _ => ?_
  refine .bind (layersNode_parenthesized hd) fun condition => ?_
  refine .bind hd.statement fun whenTrue => ?_
  refine .quiet (quiet_eat _) fun found => .ite ?_ ?_
  · exact .bind hd.statement fun whenFalse => .addAroundEnding rfl rfl
  · exact .addAroundEnding rfl rfl

theorem layersOnly_guarded (hd : d.LayersTrees) (form : GuardForm) (word : Keyword) :
    LayersOnly given (d.guarded form word) := by
  refine .quiet quiet_offset fun start => ?_
  refine .quiet (quiet_expect _) fun _ => ?_
  refine .bind (layersNode_parenthesized hd) fun condition => ?_
  exact .bind hd.statement fun body => .addAroundEnding rfl rfl

theorem layersOnly_doLoop (hd : d.LayersTrees) : LayersOnly given d.doLoop := by
  refine .quiet quiet_offset fun start => ?_
  refine .quiet (quiet_expect _) fun _ => ?_
  refine .bind hd.statement fun body => ?_
  refine .quiet (quiet_expect _) fun _ => ?_
  refine .quiet (quiet_expectMark _) fun _ => ?_
  refine .bind (layersNode_expression hd) fun condition => ?_
  refine .quiet (quiet_expectMark _) fun stop => ?_
  exact .quiet (quiet_eatMark _) fun _ => .addAround rfl rfl

theorem layersOnly_loopInitializer (hd : d.LayersTrees) :
    LayersOnly given d.loopInitializer := by
  have hlist : LayersOnly given (do return some (← d.declarationList)) :=
    .bind (layersOnly_declarationList hd) fun i => .pure (List.nil_subset _)
  have hexpression : LayersOnly given (do return some (← d.expression)) :=
    .bind (layersNode_expression hd) fun i => .pure (List.nil_subset _)
  refine .quiet quiet_kind fun k => ?_
  split
  · exact .pure (List.nil_subset _)
  · exact hlist
  · exact hlist
  · exact .quiet quiet_scanner fun s => .ite hlist hexpression
  · exact hexpression

theorem keeps_checkIterationTarget {f : Forest} (target : Slot) :
    Keeps f (checkIterationTarget target) := by
  refine .bind (.still .get) fun state => ?_
  extract_lets forest bareDeclarator
  split
  · exact .ite (.still (.pure ())) (.still (still_fail _))
  · exact Pattern.keeps_convert _
  · exact Pattern.keeps_convert _
  · exact .ite (.still (.pure ())) (.still (still_fail _))
  · exact .still (still_fail _)

theorem layersOnly_iteration (hd : d.LayersTrees) (start : Nat) (target : Slot)
    (form : IterationForm) (isAwait : Bool) :
    LayersOnly given (d.iteration start target form isAwait) := by
  refine .reshape (fun _ => keeps_checkIterationTarget target) fun _ => ?_
  refine .quiet quiet_advance fun _ => ?_
  extract_lets close
  have hclose : ∀ subject given, LayersOnly given (close subject) := by
    intro subject given
    refine .quiet (quiet_expectMark _) fun _ => ?_
    exact .bind hd.statement fun body => .addAroundEnding rfl rfl
  split
  · exact .bind (.withReader hd.assignment) fun subject => hclose subject _
  · exact .bind (.withReader (layersNode_expression hd)) fun subject => hclose subject _

theorem layersOnly_optionalExpression (hd : d.LayersTrees) (stop : Punctuator) :
    LayersOnly given (d.optionalExpression stop) := by
  refine .quiet (quiet_isAtMark _) fun found => .ite (.pure (List.nil_subset _)) ?_
  exact .bind (.withReader (layersNode_expression hd)) fun i => .pure (List.nil_subset _)

theorem layersOnly_forLoop (hd : d.LayersTrees) (start : Nat) (initializer : Slot) :
    LayersOnly given (d.forLoop start initializer) := by
  unfold forLoop
  extract_lets close
  have hclose : ∀ u, LayersOnly given (close u) := by
    intro u
    refine .quiet (quiet_expectMark _) fun _ => ?_
    refine .bind (layersOnly_optionalExpression hd _) fun condition => ?_
    refine .quiet (quiet_expectMark _) fun _ => ?_
    refine .bind (layersOnly_optionalExpression hd _) fun increment => ?_
    refine .quiet (quiet_expectMark _) fun _ => ?_
    exact .bind hd.statement fun body => .addAroundEnding rfl rfl
  split
  · exact .quiet (quiet_checkDeclarations _) hclose
  · exact .chosen (hclose ())

theorem layersOnly_forStatement (hd : d.LayersTrees) : LayersOnly given d.forStatement := by
  refine .quiet quiet_offset fun start => ?_
  refine .quiet (quiet_expect _) fun _ => ?_
  refine .quiet quiet_isAtAwait fun isAwait => ?_
  refine .optionally quiet_advance fun _ => ?_
  refine .quiet (quiet_expectMark _) fun _ => ?_
  refine .bind (.withReader (layersOnly_loopInitializer hd)) fun initializer => ?_
  refine .quiet (quiet_isAtWord _) fun atOf => .ite (layersOnly_iteration hd ..) ?_
  refine .ite (.fail _) (.quiet (quiet_isAt _) fun atIn => ?_)
  exact .ite (layersOnly_iteration hd ..) (layersOnly_forLoop hd start initializer)

/-!
## Jumps
-/

theorem layersOnly_returnStatement (hd : d.LayersTrees) :
    LayersOnly given d.returnStatement := by
  refine .quiet quiet_token fun t => .quiet quiet_advance fun _ => ?_
  refine .quiet quiet_token fun next => .ite ?_ ?_
  · exact .quiet quiet_semicolon fun _ => .addBelow (List.nil_subset _)
  · refine .bind (layersNode_expression hd) fun value => .quiet (quiet_endOf _) fun stop => ?_
    exact .quiet quiet_semicolon fun _ => .addBelow (by simp [childrenOf, Node.slots])

theorem layersOnly_throwStatement (hd : d.LayersTrees) : LayersOnly given d.throwStatement := by
  refine .quiet quiet_offset fun start => .quiet quiet_advance fun _ => ?_
  refine .quiet quiet_token fun t => .ite (.fail _) ?_
  refine .bind (layersNode_expression hd) fun value => .quiet (quiet_endOf _) fun stop => ?_
  exact .quiet quiet_semicolon fun _ => .addBelow (by simp [childrenOf, Node.slots])

theorem layersOnly_jump (form : JumpForm) : LayersOnly given (jump form) := by
  refine .quiet quiet_token fun t => .quiet quiet_advance fun _ => ?_
  refine .quiet quiet_token fun next => .quiet quiet_isAtIdentifier fun found => .ite ?_ ?_
  · refine .bind layersNode_identifier fun label => .quiet (quiet_endOf _) fun stop => ?_
    exact .quiet quiet_semicolon fun _ => .addBelow (by simp [childrenOf, Node.slots])
  · exact .quiet quiet_semicolon fun _ => .addBelow (List.nil_subset _)

/-!
## Exceptions
-/

theorem layersOnly_catchClause (hd : d.LayersTrees) : LayersOnly given d.catchClause := by
  refine .quiet quiet_offset fun start => .quiet quiet_advance fun _ => ?_
  refine .quiet (quiet_eatMark _) fun found => ?_
  extract_lets close
  have hclose : ∀ binding given, LayersOnly given (close binding) := fun binding given =>
    .bind (layersOnly_block hd) fun block => .addAroundEnding rfl rfl
  refine .ite ?_ (.chosen (hclose none given))
  refine .bind hd.bindingTarget fun target => ?_
  exact .quiet (quiet_expectMark _) fun _ => .chosen (hclose (some target) _)

theorem layersOnly_tryStatement (hd : d.LayersTrees) : LayersOnly given d.tryStatement := by
  refine .quiet quiet_offset fun start => .quiet (quiet_expect _) fun _ => ?_
  refine .bind (layersOnly_block hd) fun block => .quiet (quiet_isAt _) fun found => ?_
  extract_lets finish
  have hfinish : ∀ handler, LayersOnly given (finish handler) := by
    intro handler
    refine .quiet (quiet_eat _) fun found => ?_
    extract_lets close
    have hclose : ∀ finalizer, LayersOnly given (close finalizer) := by
      intro finalizer
      dsimp only [close]
      split
      · exact .addAroundEnding rfl rfl
      · exact .fail _
    refine .ite ?_ (.chosen (hclose none))
    exact .bind (layersOnly_block hd) fun finalizer => .chosen (hclose (some finalizer))
  refine .ite ?_ (.chosen (hfinish none))
  exact .bind (layersOnly_catchClause hd) fun handler => .chosen (hfinish (some handler))

/-!
## Switches
-/

theorem layersOnly_clauseRest (hd : d.LayersTrees) (start : Nat) (test : Slot) :
    LayersOnly given (d.clauseRest start test) := by
  refine .quiet (quiet_expectMark _) fun colon => ?_
  refine .bind (layersOnly_repeated (fun _ => ?_) _ _) fun statements => ?_
  · refine .quiet quiet_kind fun k => ?_
    split
    · exact .pure (List.nil_subset _)
    · exact .pure (List.nil_subset _)
    · exact .pure (List.nil_subset _)
    · exact .pure (List.nil_subset _)
    · exact .bind hd.statement fun i => .pure (List.nil_subset _)
  · extract_lets close
    have hclose : ∀ stop, LayersOnly given (close stop) := fun stop => .addAround rfl rfl
    split
    · exact .quiet (quiet_endOf _) hclose
    · exact .chosen (hclose colon)

theorem layersOnly_clauses (hd : d.LayersTrees) (fuel : Nat) (hasDefault : Bool)
    (reversed : List NodeId) : LayersOnly given (d.clauses fuel hasDefault reversed) := by
  induction fuel generalizing hasDefault reversed given with
  | zero => exact .fail _
  | succ fuel ih =>
      refine .quiet quiet_offset fun start => .quiet quiet_kind fun k => ?_
      split
      · exact .pure (List.nil_subset _)
      · refine .quiet quiet_advance fun _ => ?_
        refine .bind (layersNode_expression hd) fun test => ?_
        exact .bind (layersOnly_clauseRest hd start (some test)) fun clause => ih _ _
      · refine .ite (.fail _) (.quiet quiet_advance fun _ => ?_)
        exact .bind (layersOnly_clauseRest hd start none) fun clause => ih _ _
      · exact .fail _

theorem layersOnly_switchStatement (hd : d.LayersTrees) : LayersOnly given d.switchStatement := by
  refine .quiet quiet_offset fun start => .quiet (quiet_expect _) fun _ => ?_
  refine .bind (layersNode_parenthesized hd) fun subject => ?_
  refine .quiet (quiet_expectMark _) fun _ => ?_
  refine .bind (layersOnly_clauses hd _ false []) fun clauses => ?_
  exact .quiet (quiet_expectMark _) fun stop => .addAround rfl rfl

/-!
## Statements
-/

theorem layersOnly_single {n : Node Slot} (hslots : n.slots = []) :
    LayersOnly given (single n) := by
  refine .quiet quiet_token fun t => ?_
  refine .quiet quiet_advance fun _ => ?_
  exact .addBelow (by simp [childrenOf, hslots])

theorem layersOnly_expressionStatement (hd : d.LayersTrees) :
    LayersOnly given d.expressionStatement := by
  refine .quiet quiet_offset fun start => ?_
  refine .bind (layersNode_expression hd) fun e => .quiet (quiet_endOf _) fun stop => ?_
  exact .quiet quiet_semicolon fun _ => .addBelow (by simp [childrenOf, Node.slots])

theorem layersOnly_labeledStatement (hd : d.LayersTrees) :
    LayersOnly given d.labeledStatement := by
  refine .quiet quiet_offset fun start => ?_
  refine .bind layersNode_identifier fun label => ?_
  refine .quiet (quiet_expectMark _) fun _ => ?_
  exact .bind hd.statement fun body => .addAroundEnding rfl rfl

theorem layersOnly_debuggerStatement : LayersOnly given debuggerStatement := by
  refine .quiet quiet_token fun t => .quiet quiet_advance fun _ => ?_
  exact .quiet quiet_semicolon fun _ => .addBelow (List.nil_subset _)

theorem layersOnly_otherStatement (hd : d.LayersTrees) : LayersOnly given d.otherStatement := by
  refine .quiet quiet_isAtIdentifier fun found => .quiet quiet_scanner fun s => ?_
  exact .ite (layersOnly_labeledStatement hd) (layersOnly_expressionStatement hd)

theorem layersOnly_statement (hd : d.LayersTrees) :
    LayersOnly given d.statementProduction := by
  refine .quiet quiet_scanner fun s => ?_
  split
  · exact layersOnly_block hd
  · exact layersOnly_single rfl
  · exact layersOnly_variableStatement hd
  · exact layersOnly_variableStatement hd
  · exact .ite (layersOnly_variableStatement hd) (layersOnly_otherStatement hd)
  · exact layersOnly_functionDeclaration hd false
  · exact .ite (layersOnly_functionDeclaration hd true) (layersOnly_otherStatement hd)
  · exact layersOnly_classDeclaration hd
  · exact layersOnly_conditionalStatement hd
  · exact layersOnly_forStatement hd
  · exact layersOnly_guarded hd _ _
  · exact layersOnly_doLoop hd
  · exact layersOnly_returnStatement hd
  · exact layersOnly_throwStatement hd
  · exact layersOnly_jump .«break»
  · exact layersOnly_jump .«continue»
  · exact layersOnly_tryStatement hd
  · exact layersOnly_switchStatement hd
  · exact layersOnly_guarded hd _ _
  · exact layersOnly_debuggerStatement
  · exact .ite (layersOnly_expressionStatement hd) (.fail _)
  · exact .fail _
  · exact .fail _
  · exact layersOnly_otherStatement hd

theorem layers_production (hd : d.LayersTrees) (goal : Goal) (given : List NodeId) :
    Layers given (d.production goal) fun i => if goal = .statement then [] else [i] := by
  cases goal with
  | statement => exact .deeper (layersOnly_statement hd)
  | assignment => exact .deeper (layersNode_assignment hd)
  | binary bound => exact layersNode_binary hd bound
  | unary => exact layersNode_unary hd
  | leftHandSide => exact layersNode_leftHandSide hd
  | newExpression => exact layersNode_newExpression hd
  | bindingTarget => exact layersNode_bindingTarget hd

end Descent

/-!
## Programs
-/

theorem layersTrees_parseGoal (fuel bound : Nat) :
    Descent.LayersTrees ⟨parseGoal fuel, bound⟩ := by
  induction fuel generalizing bound with
  | zero => exact fun goal given => .fail _
  | succ fuel ih => exact fun goal given => Descent.layers_production (ih fuel) goal given

theorem layersOnly_program {d : Descent} (hd : d.LayersTrees) : LayersOnly [] (program d) := by
  refine .quiet quiet_advance fun _ => ?_
  refine .bind (layersOnly_repeated (fun _ => ?_) _ _) fun statements => ?_
  · refine .quiet (quiet_isAt _) fun found => .ite (.pure (List.nil_subset _)) ?_
    exact .bind hd.statement fun i => .pure (List.nil_subset _)
  · refine .quiet quiet_checkShorthands fun _ => ?_
    exact .quiet quiet_tokenEnd fun stop => .addAround rfl rfl

namespace Program

variable {source : String} {p : Program}

theorem tiered_parse (h : parse source = .ok p) : p.forest.Tiered := by
  rcases run_of_parse h with ⟨state, hrun, hforest⟩
  have hprogram := layersOnly_program (layersTrees_parseGoal _ _) tiered_empty
    (fun i hi => nomatch hi) hrun
  exact hforest ▸ hprogram.1

theorem layered_parse (h : parse source = .ok p) : p.forest.Layered :=
  (tiered_parse h).layered

end Program
end Untangle
