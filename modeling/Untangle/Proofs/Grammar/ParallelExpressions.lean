import Untangle.Proofs.Grammar.ParallelFunctions

/-!
# Parallel readings of expressions
-/

namespace Untangle
namespace Descent

open Parse

variable {d₁ d₂ : Descent}

/-!
## Sequences
-/

theorem same_sequenceTurn (hd : d₁.Alike d₂) : Same d₁.sequenceTurn d₂.sequenceTurn :=
  .next (same_eatMark (by decide)) fun _ => .ite (.next hd.assignment fun _ => .pure rfl)
    (.pure rfl)

theorem same_expression (hd : d₁.Alike d₂) : Same d₁.expression d₂.expression := by
  refine .any any_offset fun start start' => .next hd.assignment fun first => ?_
  refine .next (same_repeated (same_sequenceTurn hd) ..) fun others => ?_
  split
  · exact .pure rfl
  · exact same_addEnding ..

/-!
## Literals
-/

theorem same_spread (hd : d₁.Alike d₂) : Same d₁.spread d₂.spread := by
  refine .any any_offset fun start start' => .any (any_expectMark _) fun _ _ => ?_
  exact .next (.allowingIn hd.assignment) fun value => same_addEnding ..

theorem same_spreadOrAssignment (hd : d₁.Alike d₂) :
    Same d₁.spreadOrAssignment d₂.spreadOrAssignment :=
  .next (same_isAtMark (by decide)) fun _ => .ite (same_spread hd) (.allowingIn hd.assignment)

theorem refuses_spreadOrAssignment (hd : d₁.Alike d₂) :
    Refuses .expressionExpected d₁.spreadOrAssignment :=
  .asked (answers_isAtMark (by decide)) hd.refuses_assignment.allowingIn

theorem parallel_arrayTurn (hd : d₁.Alike d₂) :
    Parallel (fun t s => t.Ends ∧ s.AtBracket) Eq d₁.arrayTurn d₂.arrayTurn := by
  refine .kind (fun kind => ?_) fun _ _ _ _ _ hs => .alone ⟨trivial, hs.bare⟩
  split
  · exact .pure rfl
  · exact .staying (.next same_hole fun i => .pure rfl)
  · exact .staying (.next (same_spreadOrAssignment hd) fun i => same_beforeComma i)

theorem same_arrayLiteral (hd : d₁.Alike d₂) : Same d₁.arrayLiteral d₂.arrayLiteral :=
  .any any_offset fun _ _ => .any (any_expectMark _) fun _ _ =>
    same_arrayRest (parallel_arrayTurn hd) ..

theorem same_methodProperty (hd : d₁.Alike d₂) (start start' : Nat) (head : MethodHead)
    (key : NodeId) (computed : Bool) :
    Same (d₁.methodProperty start head key computed)
      (d₂.methodProperty start' head key computed) := by
  refine .next (same_methodFunction hd head) fun method => ?_
  exact .next (same_checkAccessor head method) fun _ => same_addEnding ..

theorem same_objectProperty (hd : d₁.Alike d₂) : Same d₁.objectProperty d₂.objectProperty := by
  refine .any any_offset fun start start' => ?_
  refine .next (same_isAtMark (by decide)) fun found => .ite (same_spread hd) ?_
  refine .next same_methodHead fun head => .next same_isAtIdentifier fun isPlain => ?_
  refine .next (same_propertyName hd false) fun (key, computed) => ?_
  refine .kind (fun kind => ?_) (Parallel.atEnd (.fail _))
  -- A shorthand property copies its name, so that key and value are two nodes.
  have hshorthand : Same
      (do
        let value ← copyIdentifier key
        if ← eatMark .assign then
          let value ← d₁.defaultValue value
          let stop ← endOf value
          add (.property .shorthand (some key) (some value) computed) start stop
        else
          let stop ← endOf value
          add (.property .shorthand (some key) (some value) computed) start stop)
      (do
        let value ← copyIdentifier key
        if ← eatMark .assign then
          let value ← d₂.defaultValue value
          let stop ← endOf value
          add (.property .shorthand (some key) (some value) computed) start' stop
        else
          let stop ← endOf value
          add (.property .shorthand (some key) (some value) computed) start' stop) := by
    refine .next (same_copyIdentifier key) fun value => ?_
    refine .next (same_eatMark (by decide)) fun found => .ite ?_ (same_addEnding ..)
    exact .next (same_defaultValue hd value) fun value => same_addEnding ..
  split
  · exact same_methodProperty hd start start' head key computed
  · refine .ite (.next same_advance fun _ => ?_) (.fail _)
    exact .next (.allowingIn hd.assignment) fun value => same_addEnding ..
  · exact .ite (.fail _) (.ite hshorthand (.fail _))
  · exact .ite (.fail _) (.ite hshorthand (.fail _))
  · exact .ite (.fail _) (.ite hshorthand (.fail _))
  · exact .fail _

theorem same_objectTurn (hd : d₁.Alike d₂) : Same d₁.objectTurn d₂.objectTurn := by
  refine .next (same_isAtMark (by decide)) fun found => .ite (.pure rfl) ?_
  exact .next (same_objectProperty hd) fun i => same_beforeComma i

theorem same_objectLiteral (hd : d₁.Alike d₂) : Same d₁.objectLiteral d₂.objectLiteral := by
  refine .any any_offset fun start start' => .any (any_expectMark _) fun _ _ => ?_
  refine .next (same_repeated (same_objectTurn hd) ..) fun properties => ?_
  exact .any (any_expectMark _) fun _ _ => same_add ..

/-!
## Regular expressions
-/

section Slash

variable {ctx : Context} {s : ParseState}

theorem regularExpression_eq : regularExpression ctx s =
    (match s.scanner.rescanSlash.token.kind, s.scanner.rescanSlash.error with
      | .unknown, some error => failAt s.scanner.token.start.offset (.lexical error.cause)
      | _, _ => install s.scanner.rescanSlash >>= fun _ => advance >>= fun _ =>
          add (.regularExpression s.scanner.rescanSlash.token.value)
            s.scanner.token.start.offset s.scanner.rescanSlash.token.next.offset : Parse NodeId)
      ctx s :=
  rfl

theorem run_regularExpression (h : s.scanner.rescanSlash.token.kind ≠ .unknown) :
    regularExpression ctx s =
      (advance >>= fun _ => add (.regularExpression s.scanner.rescanSlash.token.value)
        s.scanner.token.start.offset s.scanner.rescanSlash.token.next.offset)
          ctx { s with scanner := s.scanner.rescanSlash } := by
  rw [regularExpression_eq]
  refine (congrFun (congrFun (?_ : _ = install s.scanner.rescanSlash >>= fun _ => _) ctx) s).trans
    (run_bind_of_ok (run_install_known (.inl h)))
  split
  · rename_i hunknown _
    exact absurd hunknown h
  · rfl

theorem run_regularExpression_malformed (h : s.scanner.rescanSlash.Malformed) :
    ∃ e, regularExpression ctx s = .error e := by
  obtain ⟨error, herror⟩ := Option.isSome_iff_exists.mp h.error
  rw [regularExpression_eq, h.kind, herror]
  exact ⟨_, rfl⟩

end Slash

/-- The rest of a regular expression behind its token. -/
theorem same_behindSlash (n : Node Slot) (start stop start' stop' : Nat) :
    Same (advance >>= fun _ => add n start stop) (advance >>= fun _ => add n start' stop') :=
  .next same_advance fun _ => same_add ..

theorem same_regularExpression : Same regularExpression regularExpression where
  past := by
    intro ctx s i s' hs hrun
    have hclosing : s.scanner.token.kind ∈ Scanner.closingKinds := by
      rcases hs.kind with hkind | hkind <;> rw [hkind] <;> decide
    have hsame := Scanner.rescanSlash_of_closing hclosing
    have hknown : s.scanner.rescanSlash.token.kind ≠ .unknown := by
      rw [hsame]
      rcases hs.kind with hkind | hkind <;> rw [hkind] <;> nofun
    rw [run_regularExpression hknown, hsame] at hrun
    exact (same_behindSlash _ _ _ 0 0).past hs hrun
  twins := by
    intro ctx₁ ctx₂ s₁ s₂ hctx hs
    cases hs.scanner with
    | within h =>
        rcases h.rescanSlash with hwithin | ⟨hmalformed, -⟩
        · obtain ⟨s, hstanding, hs₁, hs₂⟩ := hwithin
          have hknown₁ : s₁.scanner.rescanSlash.token.kind ≠ .unknown := by
            rw [hs₁]
            exact hstanding.known
          have hknown₂ : s₂.scanner.rescanSlash.token.kind ≠ .unknown := by
            rw [hs₂]
            exact hstanding.known
          have hvalue : s₁.scanner.rescanSlash.token.value =
              s₂.scanner.rescanSlash.token.value := by
            rw [hs₁, hs₂]
            rfl
          rw [run_regularExpression hknown₁, run_regularExpression hknown₂, hvalue]
          exact (same_behindSlash ..).twins hctx ⟨.within ⟨s, hstanding, hs₁, hs₂⟩, hs.forest⟩
        · obtain ⟨e, he⟩ := @run_regularExpression_malformed ctx₁ s₁ hmalformed
          rw [he]
          exact .fails
    | behind h₁ h₂ =>
        have hsame := Scanner.rescanSlash_of_closing h₁.kind_mem
        have hknown : s₁.scanner.rescanSlash.token.kind ≠ .unknown := by
          rw [hsame, h₁.kind_bareLine]
          nofun
        rw [run_regularExpression hknown, hsame]
        exact AtEnd.advance (same_add _ _ _ 0 0) hctx ⟨h₁, h₂, hs.forest⟩

/-!
## Templates
-/

theorem same_quasi (tagged : Bool) : Same (quasi tagged) (quasi tagged) := by
  refine .token fun t₁ t₂ ht => ?_
  rw [ht.invalidEscape, ht.raw, ht.value]
  exact .ite (.ite (.pure rfl) (.fail _)) (.pure rfl)

theorem same_templateParts (hd : d₁.Alike d₂) (tagged : Bool) (fuel₁ fuel₂ : Nat)
    (quasis : List Quasi) (expressions : List NodeId) :
    Same (d₁.templateParts tagged fuel₁ quasis expressions)
      (d₂.templateParts tagged fuel₂ quasis expressions) := by
  induction fuel₁ generalizing fuel₂ quasis expressions with
  | zero => exact .fail _
  | succ fuel₁ ih =>
      have hmore : ∀ fuel₂, Same (d₁.templateParts tagged (fuel₁ + 1) quasis expressions)
          (d₂.templateParts tagged (fuel₂ + 1) quasis expressions) := by
        intro fuel₂
        refine .next same_advance fun _ => ?_
        refine .next (.allowingIn (same_expression hd)) fun e => ?_
        refine .kind (fun kind => ?_) (Parallel.atEnd (.fail _))
        split
        · exact .next (same_quasi tagged) fun piece => ih fuel₂ (piece :: quasis) (e :: expressions)
        · exact .next (same_quasi tagged) fun piece => .pure rfl
        · exact .fail _
      cases fuel₂ with
      | zero => exact (hmore 0).giveUp
      | succ fuel₂ => exact hmore fuel₂

theorem same_template (hd : d₁.Alike d₂) (tagged : Bool) :
    Same (d₁.template tagged) (d₂.template tagged) := by
  refine .any any_offset fun start start' => .next (same_quasi tagged) fun first => ?_
  refine .next (same_isAt (by decide)) fun found => ?_
  extract_lets close close'
  have hclose : ∀ parts, Same (close parts) (close' parts) := fun parts =>
    .any any_tokenEnd fun _ _ => .next same_advance fun _ => same_add ..
  refine .ite (.given (hclose ([first], []))) ?_
  exact .next (same_templateParts hd ..) fun parts => hclose parts

/-!
## Primary expressions
-/

theorem same_single (n : Node Slot) : Same (single n) (single n) :=
  .token fun _ _ _ => .next same_advance fun _ => same_add ..

theorem same_grouped (hd : d₁.Alike d₂) : Same d₁.grouped d₂.grouped := by
  refine .next same_advance fun _ => .next (.allowingIn (same_expression hd)) fun e => ?_
  exact .any (any_expectMark _) fun _ _ => .pure rfl

theorem same_superReference : Same superReference superReference := by
  refine .token fun t₁ t₂ ht => .next same_advance fun _ => ?_
  refine .kind (fun kind => ?_) (Parallel.atEnd (.fail _))
  split
  · exact same_add ..
  · exact same_add ..
  · exact same_add ..
  · exact .fail _

theorem same_importReference : Same importReference importReference := by
  refine .token fun t₁ t₂ ht => .next same_advance fun _ => ?_
  exact .next (same_isAtMark (by decide)) fun found => .ite (same_add ..) (.fail _)

theorem same_primary (hd : d₁.Alike d₂) : Same d₁.primary d₂.primary := by
  refine .token fun t₁ t₂ ht => .scanner fun c₁ c₂ hc => ?_
  rw [ht.isContextual, hc.asyncFunctionFollows]
  refine .ite (same_functionExpression hd true) ?_
  refine .next same_isAtIdentifier fun found => .ite same_identifier ?_
  rcases ht.kind with hkind | ⟨hkind₁, hkind₂⟩
  · rw [hkind]
    split
    · exact same_literalKey
    · exact same_literalKey
    · exact same_literalKey
    · exact same_template hd false
    · exact same_template hd false
    · exact same_regularExpression
    · exact same_regularExpression
    · exact same_single _
    · exact same_single _
    · exact same_single _
    · exact same_single _
    · exact same_grouped hd
    · exact same_arrayLiteral hd
    · exact same_objectLiteral hd
    · exact same_functionExpression hd false
    · exact same_classExpression hd
    · exact same_superReference
    · exact same_importReference
    · exact .fail _
  · rw [hkind₁, hkind₂]
    exact .fail _

/-!
## Accesses and calls
-/

theorem same_argumentTurn (hd : d₁.Alike d₂) : Same d₁.argumentTurn d₂.argumentTurn := by
  refine .isAtParen (fun found => .ite (.pure rfl) ?_) (refuses_spreadOrAssignment hd).bind
  exact .next (same_spreadOrAssignment hd) fun i => same_beforeComma i

/-- The same arguments, which end anywhere. -/
theorem parallel_arguments (hd : d₁.Alike d₂) :
    Parallel noLeave (fun r r' => r.1 = r'.1) d₁.arguments d₂.arguments := by
  refine .any (any_expectMark _) fun _ _ => ?_
  refine .next (same_repeated (same_argumentTurn hd) ..) fun items => ?_
  exact .any (any_expectMark _) fun _ _ => .pure rfl

theorem same_namedAccess (start start' : Nat) (object : NodeId) (isOptional inChain : Bool) :
    Same (namedAccess start object isOptional inChain)
      (namedAccess start' object isOptional inChain) :=
  .next same_memberName fun _ => same_addEnding ..

theorem same_suffix? (hd : d₁.Alike d₂) (start start' : Nat) (allowCalls : Bool)
    (object : NodeId) (isOptional inChain : Bool) :
    Same (d₁.suffix? start allowCalls object isOptional inChain)
      (d₂.suffix? start' allowCalls object isOptional inChain) := by
  have hother : Same
      (if isOptional then do return some (← namedAccess start object true inChain) else return none)
      (if isOptional then do return some (← namedAccess start' object true inChain)
        else return none) :=
    .ite (.next (same_namedAccess ..) fun i => .pure rfl) (.pure rfl)
  refine .kind (fun kind => ?_) hother.atEnd
  split
  · refine .ite (.fail _) (.next same_advance fun _ => ?_)
    exact .next (same_namedAccess ..) fun i => .pure rfl
  · refine .next same_advance fun _ => .next (.allowingIn (same_expression hd)) fun key => ?_
    exact .any (any_expectMark _) fun _ _ => .next (same_add ..) fun i => .pure rfl
  · refine .ite ?_ (.pure rfl)
    refine .bind (parallel_arguments hd) (fun r => ⟨r, rfl⟩) ?_
    intro (slots, stop) (_, stop') hslots
    subst hslots
    exact .next (same_add ..) fun i => .pure rfl
  · refine .ite (.fail _) (.next (same_template hd true) fun text => ?_)
    exact .any (any_endOf text) fun _ _ => .next (same_add ..) fun i => .pure rfl
  · refine .ite (.fail _) (.next (same_template hd true) fun text => ?_)
    exact .any (any_endOf text) fun _ _ => .next (same_add ..) fun i => .pure rfl
  · exact hother

theorem same_suffixes (hd : d₁.Alike d₂) (start start' : Nat) (allowCalls : Bool)
    (fuel₁ fuel₂ : Nat) (object : NodeId) (inChain : Bool) :
    Same (d₁.suffixes start allowCalls fuel₁ object inChain)
      (d₂.suffixes start' allowCalls fuel₂ object inChain) := by
  induction fuel₁ generalizing fuel₂ object inChain with
  | zero => exact .fail _
  | succ fuel₁ ih =>
      have hmore : ∀ fuel₂, Same (d₁.suffixes start allowCalls (fuel₁ + 1) object inChain)
          (d₂.suffixes start' allowCalls (fuel₂ + 1) object inChain) := by
        intro fuel₂
        refine .next (same_isAtMark (by decide)) fun isOptional => .ite (.fail _) ?_
        refine .optionally same_advance fun _ => ?_
        refine .next (same_suffix? hd ..) fun extended => ?_
        cases extended with
        | none => exact .pure rfl
        | some i => exact ih fuel₂ i (inChain || isOptional)
      cases fuel₂ with
      | zero => exact (hmore 0).giveUp
      | succ fuel₂ => exact hmore fuel₂

theorem same_newTarget (start start' : Nat) : Same (newTarget start) (newTarget start') := by
  refine .next same_advance fun _ => .token fun t₁ t₂ ht => ?_
  rw [ht.isContextual]
  exact .ite (.next same_advance fun _ => same_add ..) (.fail _)

theorem same_newCallee (hd : d₁.Alike d₂) : Same d₁.newCallee d₂.newCallee := by
  refine .any any_offset fun start start' => .next (same_isAt (by decide)) fun found => .ite ?_ ?_
  · exact .next (hd.parse .newExpression) fun callee => same_suffixes hd ..
  · exact .next (same_primary hd) fun callee => same_suffixes hd ..

theorem same_newExpressionProduction (hd : d₁.Alike d₂) :
    Same d₁.newExpressionProduction d₂.newExpressionProduction := by
  refine .any any_offset fun start start' => .any (any_expect _) fun _ _ => ?_
  refine .next (same_isAtMark (by decide)) fun found => .ite (same_newTarget ..) ?_
  refine .next (.deeper (same_newCallee hd)) fun callee => .next (same_node? callee) fun node => ?_
  split
  · exact .fail _
  · refine .next (same_isAtMark (by decide)) fun found => ?_
    extract_lets close close'
    have hclose : ∀ arguments stop stop',
        Same (close (arguments, stop)) (close' (arguments, stop')) :=
      fun arguments stop stop' => same_add ..
    refine .ite ?_ (.any (any_endOf callee) fun stop stop' => .given (hclose [] stop stop'))
    refine .bind (parallel_arguments hd) (fun r => ⟨r, rfl⟩) ?_
    intro (slots, stop) (_, stop') hslots
    subst hslots
    exact hclose slots stop stop'

theorem same_leftHandSideProduction (hd : d₁.Alike d₂) :
    Same d₁.leftHandSideProduction d₂.leftHandSideProduction := by
  refine .any any_offset fun start start' => .next (same_isAt (by decide)) fun found => .ite ?_ ?_
  · exact .next (same_newExpressionProduction hd) fun operand => same_suffixes hd ..
  · exact .next (same_primary hd) fun operand => same_suffixes hd ..

/-!
## Unary operators
-/

theorem same_unaryAfter (hd : d₁.Alike d₂) : Same d₁.unaryAfter d₂.unaryAfter := by
  refine .any any_offset fun start start' => ?_
  refine .next (same_leftHandSideProduction hd) fun operand => .token fun t₁ t₂ ht => ?_
  rcases ht.kind with hkind | ⟨hkind₁, hkind₂⟩
  · rw [hkind, ht.lineBreakBefore]
    refine .ite (.next (same_isTargetAt operand) fun found => .ite ?_ (.fail _)) (.pure rfl)
    exact .next same_advance fun _ => same_add ..
  · rw [hkind₁, hkind₂]
    exact .pure rfl

theorem same_unaryBefore (hd : d₁.Alike d₂) (operator : TokenKind) :
    Same (d₁.unaryBefore operator) (d₂.unaryBefore operator) := by
  refine .any any_offset fun start start' => .next same_advance fun _ => ?_
  refine .next (.deeper (hd.parse .unary)) fun operand => ?_
  exact .next (same_isTargetAt operand) fun found => .ite (.failAt ..) (same_addEnding ..)

theorem same_awaitExpression (hd : d₁.Alike d₂) :
    Same d₁.awaitExpression d₂.awaitExpression := by
  refine .any any_offset fun start start' => .next same_advance fun _ => ?_
  exact .next (.deeper (hd.parse .unary)) fun operand => same_addEnding ..

theorem same_unaryProduction (hd : d₁.Alike d₂) :
    Same d₁.unaryProduction d₂.unaryProduction := by
  have hother : Same
      (isAtAwait >>= fun found => if found then d₁.awaitExpression else d₁.unaryAfter)
      (isAtAwait >>= fun found => if found then d₂.awaitExpression else d₂.unaryAfter) :=
    .next same_isAtAwait fun found => .ite (same_awaitExpression hd) (same_unaryAfter hd)
  refine .kind (fun kind => ?_) hother.atEnd
  refine .next same_isAtAwait fun found => .ite (same_awaitExpression hd) ?_
  exact .ite (same_unaryBefore hd kind) (same_unaryAfter hd)

/-!
## Binary operators
-/

theorem same_privateNameOperand : Same privateNameOperand privateNameOperand := by
  refine .scanner fun c₁ c₂ hc => .read fun ctx₁ ctx₂ hctx => ?_
  rw [hc.nextKind _ (by decide), hctx.noIn]
  exact .ite same_privateName (.fail _)

theorem same_operator? (bound : Option Precedence) : Same (operator? bound) (operator? bound) := by
  refine .kind (fun operator => ?_) (Parallel.atEnd ?_)
  · refine .read fun ctx₁ ctx₂ hctx => ?_
    rw [hctx.noIn]
    refine .ite (.pure rfl) ?_
    split
    · exact .pure rfl
    · exact .pure rfl
  · exact .read fun ctx₁ ctx₂ _ => .pure rfl

theorem same_operators (hd : d₁.Alike d₂) (start start' : Nat) (bound : Option Precedence)
    (afterUnary : Bool) (room : Nat) (left : NodeId) :
    Same (d₁.operators start bound afterUnary room left)
      (d₂.operators start' bound afterUnary room left) := by
  induction room generalizing afterUnary left with
  | zero =>
      unfold operators
      refine .next (same_operator? bound) fun found => ?_
      split
      · exact .pure rfl
      · exact .ite (.fail _) (.fail _)
  | succ room ih =>
      unfold operators
      refine .next (same_operator? bound) fun found => ?_
      split
      · exact .pure rfl
      · refine .ite (.fail _) (.next same_advance fun _ => ?_)
        refine .next (.deeper (hd.parse (.binary _))) fun right => ?_
        refine .any (any_endOf right) fun _ _ => .next (same_add ..) fun joined => ?_
        exact ih false joined

theorem same_binaryProduction (hd : d₁.Alike d₂) (bound : Option Precedence) :
    Same (d₁.binaryProduction bound) (d₂.binaryProduction bound) := by
  refine .any any_offset fun start start' => ?_
  have hrest : ∀ afterUnary, Same
      (isAt .privateName >>= fun found =>
        if found then privateNameOperand >>= d₁.operators start bound afterUnary Limits.treeDepth
        else d₁.unaryProduction >>= d₁.operators start bound afterUnary Limits.treeDepth)
      (isAt .privateName >>= fun found =>
        if found then privateNameOperand >>= d₂.operators start' bound afterUnary Limits.treeDepth
        else d₂.unaryProduction >>= d₂.operators start' bound afterUnary Limits.treeDepth) := by
    refine fun afterUnary => .next (same_isAt (by decide)) fun found => .ite ?_ ?_
    · exact .next same_privateNameOperand fun left => same_operators hd ..
    · exact .next (same_unaryProduction hd) fun left => same_operators hd ..
  refine .kind (fun kind => .next same_isAtAwait fun atAwait => hrest _) ?_
  exact Parallel.atEnd (.next same_isAtAwait fun atAwait => hrest (false || atAwait))

/-!
## Conditionals, `yield` and arrow functions
-/

theorem same_conditional (hd : d₁.Alike d₂) : Same d₁.conditional d₂.conditional := by
  refine .any any_offset fun start start' => ?_
  refine .next (same_binaryProduction hd none) fun condition => ?_
  refine .next (same_eatMark (by decide)) fun found => .ite ?_ (.pure rfl)
  refine .next (.allowingIn hd.assignment) fun whenTrue => .any (any_expectMark _) fun _ _ => ?_
  exact .next hd.assignment fun whenFalse => same_addEnding ..

theorem same_yieldExpression (hd : d₁.Alike d₂) :
    Same d₁.yieldExpression d₂.yieldExpression := by
  refine .token fun t₁ t₂ ht => .next same_advance fun _ => .token fun n₁ n₂ hn => ?_
  rw [hn.lineBreakBefore]
  refine .ite (same_add ..) (.next (same_eatMark (by decide)) fun delegate => ?_)
  refine .kind (fun kind => .ite ?_ (same_add ..)) (Parallel.atEnd (.ite ?_ (same_add ..)))
  · exact .next hd.assignment fun argument => same_addEnding ..
  · exact .next hd.assignment fun argument => same_addEnding ..

theorem same_arrowParameters (hd : d₁.Alike d₂) :
    Same d₁.arrowParameters d₂.arrowParameters :=
  .next (same_isAtMark (by decide)) fun _ =>
    .ite (same_parameters hd) (.next same_identifier fun _ => .pure rfl)

theorem same_arrowFunction (hd : d₁.Alike d₂) (isAsync : Bool) :
    Same (d₁.arrowFunction isAsync) (d₂.arrowFunction isAsync) := by
  refine .any any_offset fun start start' => .optionally same_advance fun _ => ?_
  refine .next (.inFunction _ _ ?_) fun (parameters, body) => same_addEnding ..
  refine .next (same_arrowParameters hd) fun parameters => .token fun t₁ t₂ ht => ?_
  rw [ht.lineBreakBefore]
  refine .ite (.fail _) (.any (any_expectMark _) fun _ _ => ?_)
  refine .next (same_isAtMark (by decide)) fun found => .ite ?_ ?_
  · exact .next (same_functionBody hd) fun body => .pure rfl
  · exact .next hd.assignment fun body => .pure rfl

theorem same_arrowStart? : Same arrowStart? arrowStart? := by
  refine .scanner fun c₁ c₂ hc => ?_
  rw [hc.token.isContextual, hc.asyncArrowFollows, hc.arrowFollows, hc.parametersFollow]
  refine .ite (.pure rfl) (.next same_isAtIdentifier fun found => .ite (.pure rfl) ?_)
  rcases hc.token.kind with hkind | ⟨hkind₁, hkind₂⟩
  · rw [hkind]
    exact .ite (.pure rfl) (.pure rfl)
  · rw [hkind₁, hkind₂]
    exact .pure rfl

/-!
## Assignments
-/

theorem same_assignmentTarget (left : NodeId) (operator : TokenKind) :
    Same (assignmentTarget left operator) (assignmentTarget left operator) := by
  refine .next (same_node? left) fun node => ?_
  split
  · exact .ite (Pattern.same_convert left) (.fail _)
  · exact .ite (Pattern.same_convert left) (.fail _)
  · exact .ite (.pure rfl) (.fail _)
  · exact .fail _

theorem same_assignmentProduction (hd : d₁.Alike d₂) :
    Same d₁.assignmentProduction d₂.assignmentProduction := by
  refine .read fun ctx₁ ctx₂ hctx => .next (same_isAt (by decide)) fun found => ?_
  rw [hctx.inGenerator]
  refine .ite (same_yieldExpression hd) (.next same_arrowStart? fun arrow => ?_)
  split
  · exact same_arrowFunction hd _
  · refine .any any_offset fun start start' => .next (same_conditional hd) fun left => ?_
    refine .kind (fun operator => .ite ?_ (.pure rfl)) (Parallel.atEnd (.pure rfl))
    refine .next (same_assignmentTarget left operator) fun _ => .next same_advance fun _ => ?_
    exact .next hd.assignment fun right => same_addEnding ..

end Descent
end Untangle
