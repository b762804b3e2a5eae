import Untangle.Proofs.Grammar.Closing
import Untangle.Proofs.Grammar.Expressions

/-!
# What goes on behind an operand

Where an expression starts with an opening mark, its productions read a primary expression and then
look for what goes on behind it: accesses, operators, an assignment. Each of these continuations
answers the operand itself, or an operation above it.
-/

namespace Untangle

open Parse

/-!
## Continuations
-/

namespace Descent

variable (d : Descent)

/-- An update operator behind an operand. -/
def updateBehind (start : Nat) (operand : NodeId) : Parse NodeId := do
  let t ← token
  if t.kind.isUpdate && !t.lineBreakBefore then
    if ← Pattern.isTargetAt operand then
      advance
      add (.unary .after t.kind (some operand)) start t.next.offset
    else fail (.invalidUpdateTarget false)
  else return operand

/-- The branches of a conditional behind its condition. -/
def conditionalBehind (start : Nat) (condition : NodeId) : Parse NodeId := do
  if ← eatMark .question then
    let whenTrue ← allowingIn d.assignment
    let _ ← expectMark .colon
    let whenFalse ← d.assignment
    add (.conditional (some condition) (some whenTrue) (some whenFalse)) start
      (← endOf whenFalse)
  else return condition

/-- The right side of an assignment behind its left side. -/
def assignmentBehind (start : Nat) (left : NodeId) : Parse NodeId := do
  let operator ← kind
  if operator.isAssignment then
    assignmentTarget left operator
    advance
    let right ← d.assignment
    add (.binary .assignment (some left) operator (some right)) start (← endOf right)
  else return left

/-- All that goes on with a primary expression, up to a comma. -/
def behindPrimary (start : Nat) (i : NodeId) : Parse NodeId := do
  let operand ← d.suffixes start true d.fuel i false
  let unary ← updateBehind start operand
  let binary ← d.operators start none false Limits.treeDepth unary
  let conditional ← d.conditionalBehind start binary
  d.assignmentBehind start conditional

/-- More expressions behind commas. -/
def sequenceBehind (start : Nat) (first : NodeId) : Parse NodeId := do
  let others ← repeated d.fuel d.sequenceTurn
  match others.getLast? with
  | none => return first
  | some last => add (.list .sequence ((first :: others).map some)) start (← endOf last)

end Descent

namespace Parse

variable {α β : Type} {act act' : Parse α} {k : α → Parse β} {ctx : Context} {s : ParseState}

theorem run_bind_congr (h : act ctx s = act' ctx s) : (act >>= k) ctx s = (act' >>= k) ctx s := by
  change (act ctx s >>= fun r => k r.1 ctx r.2) = (act' ctx s >>= fun r => k r.1 ctx r.2)
  rw [h]

theorem run_isAt_of_ne {kind : TokenKind} (h : s.scanner.token.kind ≠ kind) :
    isAt kind ctx s = .ok (false, s) := by
  change Except.ok (s.scanner.token.kind == kind, s) = _
  rw [beq_false_of_ne h]

theorem run_isAt_of_eq {kind : TokenKind} (h : s.scanner.token.kind = kind) :
    isAt kind ctx s = .ok (true, s) := by
  change Except.ok (s.scanner.token.kind == kind, s) = _
  rw [h, beq_self_eq_true]

end Parse

/-!
## Opening marks
-/

namespace ParseState

/-- At a mark that opens a literal or a group, and no parameters. -/
structure Opening (s : ParseState) (p : Punctuator) : Prop where
  kind : s.scanner.token.kind = .mark p
  opens : p ∈ [.openBracket, .openParen]
  noArrow : p = .openParen → s.scanner.parametersFollow = false

end ParseState

namespace Descent

variable {d : Descent} {ctx : Context} {s : ParseState} {p : Punctuator}

theorem opening_ne (hs : s.Opening p) {k : TokenKind}
    (hk : k ∉ [.mark .openBracket, .mark .openParen]) : s.scanner.token.kind ≠ k := by
  have hopens := hs.opens
  rw [hs.kind]
  rintro rfl
  simp only [List.mem_cons, List.not_mem_nil, or_false] at hopens hk
  rcases hopens with rfl | rfl
  · exact hk (.inl rfl)
  · exact hk (.inr rfl)

theorem isContextual_of_opening (hs : s.Opening p) (word : String) :
    s.scanner.token.isContextual word = false := by
  rw [Token.isContextual, beq_false_of_ne (opening_ne hs (by decide)), Bool.false_and,
    Bool.false_and]

theorem run_isAtIdentifier_of_opening (hs : s.Opening p) :
    isAtIdentifier ctx s = .ok (false, s) := by
  refine (run_bind_of_ok rfl).trans ?_
  rw [hs.kind]
  rfl

theorem run_arrowStart?_of_opening (hs : s.Opening p) : arrowStart? ctx s = .ok (none, s) := by
  have hparen :
      (s.scanner.token.kind == .mark .openParen && s.scanner.parametersFollow) = false := by
    by_cases hp : p = .openParen
    · rw [hs.noArrow hp, Bool.and_false]
    · have hne : s.scanner.token.kind ≠ .mark .openParen := by
        rw [hs.kind]
        simpa using hp
      rw [beq_false_of_ne hne, Bool.false_and]
  have hscanner : arrowStart? ctx s = (if s.scanner.token.isContextual "async" &&
      s.scanner.asyncArrowFollows then pure (some true)
    else isAtIdentifier >>= fun found =>
      if found then pure (if s.scanner.arrowFollows then some false else none)
      else if s.scanner.token.kind == .mark .openParen && s.scanner.parametersFollow then
        pure (some false)
      else pure none : Parse (Option Bool)) ctx s := rfl
  rw [hscanner, isContextual_of_opening hs, Bool.false_and, if_neg Bool.false_ne_true,
    run_bind_of_ok (run_isAtIdentifier_of_opening hs), if_neg Bool.false_ne_true, hparen,
    if_neg Bool.false_ne_true]
  rfl

theorem run_leftHandSide_of_opening (hs : s.Opening p) :
    d.leftHandSideProduction ctx s =
      (d.primary >>= fun i =>
        d.suffixes s.scanner.token.start.offset true d.fuel i false) ctx s := by
  have hnew := @run_isAt_of_ne ctx s (.word .«new») (opening_ne hs (by decide))
  have hrun : d.leftHandSideProduction ctx s = (isAt (.word .«new») >>= fun found =>
      (if found then d.newExpressionProduction else d.primary) >>= fun i =>
        d.suffixes s.scanner.token.start.offset true d.fuel i false : Parse NodeId) ctx s := by
    rw [leftHandSideProduction]
    refine (run_bind_of_ok rfl).trans ?_
    refine congrFun (congrFun (congrArg _ (funext fun found => ?_)) _) _
    cases found <;> rfl
  rw [hrun, run_bind_of_ok hnew, if_neg Bool.false_ne_true]

theorem run_unaryAfter : d.unaryAfter ctx s =
    (d.leftHandSideProduction >>= updateBehind s.scanner.token.start.offset) ctx s :=
  rfl

theorem run_isAtAwait_of_opening (hs : s.Opening p) : isAtAwait ctx s = .ok (false, s) := by
  change Except.ok (ctx.inAsync && s.scanner.token.isContextual "await", s) = _
  rw [isContextual_of_opening hs, Bool.and_false]

theorem isOperator_of_opening (hs : s.Opening p) :
    (s.scanner.token.kind.isUnaryOperator || s.scanner.token.kind.isUpdate) = false := by
  have hopens := hs.opens
  rw [hs.kind]
  simp only [List.mem_cons, List.not_mem_nil, or_false] at hopens
  rcases hopens with rfl | rfl <;> rfl

theorem run_unary_of_opening (hs : s.Opening p) : d.unaryProduction ctx s = d.unaryAfter ctx s := by
  have hrun : d.unaryProduction ctx s = (isAtAwait >>= fun found =>
      if found then d.awaitExpression
      else if s.scanner.token.kind.isUnaryOperator || s.scanner.token.kind.isUpdate then
        d.unaryBefore s.scanner.token.kind
      else d.unaryAfter : Parse NodeId) ctx s := rfl
  rw [hrun, run_bind_of_ok (run_isAtAwait_of_opening hs), if_neg Bool.false_ne_true,
    isOperator_of_opening hs, if_neg Bool.false_ne_true]

theorem run_binary_of_opening (hs : s.Opening p) :
    d.binaryProduction none ctx s =
      (d.unaryProduction >>=
        d.operators s.scanner.token.start.offset none false Limits.treeDepth) ctx s := by
  have hawait := @run_isAtAwait_of_opening ctx s p hs
  have hprivate := @run_isAt_of_ne ctx s .privateName (opening_ne hs (by decide))
  have hrun : d.binaryProduction none ctx s = (isAtAwait >>= fun atAwait =>
      isAt .privateName >>= fun found =>
        (if found then privateNameOperand else d.unaryProduction) >>=
          d.operators s.scanner.token.start.offset none
            (s.scanner.token.kind.isUnaryOperator || atAwait) Limits.treeDepth :
              Parse NodeId) ctx s := by
    rw [binaryProduction]
    refine (run_bind_of_ok rfl).trans ((run_bind_of_ok rfl).trans ?_)
    refine congrFun (congrFun (congrArg _ (funext fun atAwait => ?_)) _) _
    refine congrArg (Bind.bind (isAt .privateName)) (funext fun found => ?_)
    cases found <;> rfl
  rw [hrun, run_bind_of_ok hawait, run_bind_of_ok hprivate, if_neg Bool.false_ne_true,
    (Bool.or_eq_false_iff.mp (isOperator_of_opening hs)).1, Bool.false_or]

theorem run_conditional : d.conditional ctx s =
    (d.binaryProduction none >>= d.conditionalBehind s.scanner.token.start.offset) ctx s :=
  rfl

/-- An expression that starts with an opening mark starts with a primary expression. -/
theorem run_assignment_of_opening (hs : s.Opening p) :
    d.assignmentProduction ctx s =
      (d.primary >>= d.behindPrimary s.scanner.token.start.offset) ctx s := by
  have hyield := @run_isAt_of_ne ctx s (.word .«yield») (opening_ne hs (by decide))
  have hrun : d.assignmentProduction ctx s =
      (d.conditional >>= d.assignmentBehind s.scanner.token.start.offset) ctx s := by
    rw [assignmentProduction]
    refine (run_bind_of_ok rfl).trans ((run_bind_of_ok hyield).trans ?_)
    rw [Bool.and_false, if_neg Bool.false_ne_true]
    exact (run_bind_of_ok (run_arrowStart?_of_opening hs)).trans (run_bind_of_ok rfl)
  rw [hrun, run_bind_congr run_conditional, bind_assoc, run_bind_congr (run_binary_of_opening hs),
    bind_assoc, run_bind_congr (run_unary_of_opening hs), run_bind_congr run_unaryAfter, bind_assoc,
    run_bind_congr (run_leftHandSide_of_opening hs), bind_assoc]
  rfl

/-- An expression up to its first comma. -/
theorem run_expression : d.expression ctx s =
    (d.assignment >>= d.sequenceBehind s.scanner.token.start.offset) ctx s :=
  rfl

/-!
## Nothing goes on
-/

theorem answers_updateBehind (start : Nat) (operand : NodeId) :
    Answers (updateBehind start operand) operand := by
  refine .token fun t ht => ?_
  have hupdate : t.kind.isUpdate = false := by
    revert ht
    generalize t.kind = k
    revert k
    decide
  rw [hupdate, Bool.false_and, if_neg Bool.false_ne_true]
  exact .pure operand

theorem answers_suffix? (start : Nat) (allowCalls inChain : Bool) (object : NodeId) :
    Answers (d.suffix? start allowCalls object false inChain) none := by
  refine .kind fun k hk => ?_
  split
  · exact absurd hk (by decide)
  · exact absurd hk (by decide)
  · exact absurd hk (by decide)
  · exact absurd hk (by decide)
  · exact absurd hk (by decide)
  · exact .pure none

theorem answers_suffixes (start : Nat) (allowCalls inChain : Bool) {fuel : Nat} (hfuel : 0 < fuel)
    (object : NodeId) : Answers (d.suffixes start allowCalls fuel object inChain) object := by
  obtain ⟨fuel, rfl⟩ := Nat.exists_eq_add_one.mpr hfuel
  refine .bind (answers_isAtMark (by decide)) ?_
  exact .bind (answers_suffix? start allowCalls (inChain || false) object) (.pure object)

theorem answers_operator? (bound : Option Precedence) : Answers (operator? bound) none := by
  refine .kind fun operator hoperator => .read fun ctx => ?_
  have hprecedence : operator.binaryPrecedence? = none := by
    revert operator
    decide
  rw [hprecedence]
  split
  · exact .pure none
  · exact .pure none

theorem answers_operators (start : Nat) (bound : Option Precedence) (afterUnary : Bool)
    (room : Nat) (left : NodeId) :
    Answers (d.operators start bound afterUnary room left) left := by
  unfold operators
  exact .bind (answers_operator? bound) (.pure left)

theorem answers_conditionalBehind (start : Nat) (condition : NodeId) :
    Answers (d.conditionalBehind start condition) condition :=
  .bind (answers_eatMark (by decide)) (.pure condition)

theorem answers_assignmentBehind (start : Nat) (left : NodeId) :
    Answers (d.assignmentBehind start left) left := by
  refine .kind fun operator hoperator => ?_
  have hassignment : operator.isAssignment = false := by
    revert operator
    decide
  rw [hassignment, if_neg Bool.false_ne_true]
  exact .pure left

theorem answers_behindPrimary (hfuel : 0 < d.fuel) (start : Nat) (i : NodeId) :
    Answers (d.behindPrimary start i) i :=
  .bind (answers_suffixes start true false hfuel i) <|
    .bind (answers_updateBehind start i) <| .bind (answers_operators start none false _ i) <|
      .bind (answers_conditionalBehind start i) (answers_assignmentBehind start i)

theorem answers_sequenceBehind (hfuel : 0 < d.fuel) (start : Nat) (first : NodeId) :
    Answers (d.sequenceBehind start first) first := by
  have hturn : Answers d.sequenceTurn .stop := .bind (answers_eatMark (by decide)) (.pure _)
  obtain ⟨fuel, hsucc⟩ := Nat.exists_eq_add_one.mpr hfuel
  have hothers : Answers (repeated d.fuel d.sequenceTurn) [] := by
    rw [hsucc]
    exact .bind hturn (.pure [])
  exact .bind hothers (.pure first)

end Descent

/-!
## Something goes on
-/

/-- Nodes above an operand that came first. -/
def Node.isOperation : Node Slot → Bool
  | .access _ _ _ _ _ => true
  | .call _ _ _ _ _ => true
  | .taggedTemplate _ _ => true
  | .unary _ _ _ => true
  | .binary _ _ _ _ => true
  | .conditional _ _ _ => true
  | .list .sequence _ => true
  | _ => false

/-- The node satisfies the predicate. -/
abbrev Forest.Is (p : Node Slot → Bool) (f : Forest) (i : NodeId) : Prop :=
  f.satisfies (some i) p = true

theorem Forest.Is.mono {f : Forest} {i : NodeId} {p q : Node Slot → Bool}
    (hpq : ∀ n, p n = true → q n = true) (h : f.Is p i) : f.Is q i := by
  rw [Forest.Is, Forest.satisfies, Option.any_eq_true] at h ⊢
  obtain ⟨n, hn, hp⟩ := h
  exact ⟨n, hn, hpq n hp⟩

namespace Parse

/-- The answer and the forest that is left are related like this. -/
def Ensures (post : Forest → α → Prop) (act : Parse α) : Prop :=
  ∀ ⦃ctx s a s'⦄, act ctx s = .ok (a, s') → post s'.forest a

/-- The action answers the node and has read nothing, or it answers an operation. -/
def Extends (i : NodeId) (act : Parse NodeId) : Prop :=
  ∀ ⦃ctx s j s'⦄, act ctx s = .ok (j, s') → j = i ∧ s' = s ∨ s'.forest.Is Node.isOperation j

namespace Ensures

variable {α β : Type} {post : Forest → β → Prop} {act : Parse α} {k : α → Parse β}

theorem next (hk : ∀ a, Ensures post (k a)) : Ensures post (act >>= k) := by
  intro ctx s b s' hrun
  obtain ⟨a, t, -, hrest⟩ := run_bind.mp hrun
  exact hk a hrest

theorem fail (cause : SyntaxError.Cause) : Ensures post (Parse.fail cause) :=
  fun _ _ _ _ hrun => nomatch hrun

theorem ite {c : Prop} [Decidable c] {run other : Parse β} (h : Ensures post run)
    (hother : Ensures post other) : Ensures post (if c then run else other) := by
  split
  · exact h
  · exact hother

theorem add {n : Node Slot} {start stop : Nat} {p : Node Slot → Bool} (hn : p n = true) :
    Ensures (Forest.Is p) (add n start stop) := by
  intro ctx s j s' hrun
  cases hrun
  change ((s.forest.add n start stop).2.node? (some s.forest.size)).any p = true
  rw [Forest.node?_add_self, Option.any_some, hn]

/-- The answer is put into a slot. -/
theorem some {act : Parse NodeId} {post : Forest → NodeId → Prop} (h : Ensures post act) :
    Ensures (fun f slot => ∃ j, slot = some j ∧ post f j)
      (act >>= fun j => Pure.pure (Option.some j)) := by
  intro ctx s slot s'' hrun
  obtain ⟨j, s', hadd, hpure⟩ := run_bind.mp hrun
  obtain ⟨rfl, rfl⟩ := run_pure.mp hpure
  exact ⟨j, rfl, h hadd⟩

end Ensures

namespace Extends

variable {α : Type} {act : Parse α} {i : NodeId}

theorem pure (i : NodeId) : Extends i (pure i) := by
  intro ctx s j s' hrun
  obtain ⟨rfl, rfl⟩ := run_pure.mp hrun
  exact .inl ⟨rfl, rfl⟩

theorem new {act : Parse NodeId} (h : Ensures (Forest.Is Node.isOperation) act) : Extends i act :=
  fun _ _ _ _ hrun => .inr (h hrun)

theorem bind {act : Parse NodeId} {k : NodeId → Parse NodeId} (hact : Extends i act)
    (hk : ∀ j, Extends j (k j)) : Extends i (act >>= k) := by
  intro ctx s l s'' hrun
  obtain ⟨j, s', hfirst, hrest⟩ := run_bind.mp hrun
  rcases hk j hrest with ⟨rfl, rfl⟩ | hnew
  · exact hact hfirst
  · exact .inr hnew

theorem still {k : α → Parse NodeId} (hact : Still act) (hk : ∀ a, Extends i (k a)) :
    Extends i (act >>= k) := by
  intro ctx s j s' hrun
  obtain ⟨a, t, hfirst, hrest⟩ := run_bind.mp hrun
  obtain rfl := hact hfirst
  exact hk a hrest

theorem ite {c : Prop} [Decidable c] {act other : Parse NodeId} (h : Extends i act)
    (hother : Extends i other) : Extends i (if c then act else other) := by
  split
  · exact h
  · exact hother

/-- A mark that something else follows. -/
theorem eatMark {p : Punctuator} {k : Bool → Parse NodeId}
    (htrue : Ensures (Forest.Is Node.isOperation) (k true)) (hfalse : Extends i (k false)) :
    Extends i (eatMark p >>= k) := by
  rw [Parse.eatMark, eat, bind_assoc]
  refine .still (still_isAt _) fun found => ?_
  cases found with
  | false => exact hfalse
  | true =>
      rw [if_pos rfl, bind_assoc]
      exact .new (.next fun _ => htrue)

end Extends

/-- What holds of an operand and of all operations is kept by what goes on with the operand. -/
theorem Ensures.extend {p : Node Slot → Bool} {act : Parse NodeId} {k : NodeId → Parse NodeId}
    (hp : ∀ n, n.isOperation = true → p n = true) (h : Ensures (Forest.Is p) act)
    (hk : ∀ i, Extends i (k i)) : Ensures (Forest.Is p) (act >>= k) := by
  intro ctx s j s'' hrun
  obtain ⟨i, s', hact, hrest⟩ := run_bind.mp hrun
  rcases hk i hrest with ⟨rfl, rfl⟩ | hoperation
  · exact h hact
  · exact hoperation.mono hp

/-!
## Few turns
-/

section Repetition

variable {α : Type} {turn : Parse (Turn α)} {ctx : Context} {s s' : ParseState} {fuel : Nat}
  {reversed l : List α} {a : α}

theorem prefix_of_repeatFrom (hrun : repeatFrom turn fuel reversed ctx s = .ok (l, s')) :
    reversed.reverse <+: l := by
  induction fuel generalizing reversed s with
  | zero => cases hrun
  | succ fuel ih =>
      obtain ⟨t, s'', -, hrest⟩ := run_bind.mp hrun
      cases t with
      | stop =>
          obtain ⟨rfl, -⟩ := run_pure.mp hrest
          exact List.prefix_rfl
      | skip => exact ih hrest
      | last item =>
          obtain ⟨rfl, -⟩ := run_pure.mp hrest
          rw [List.reverse_cons]
          exact List.prefix_append _ _
      | item item =>
          have hprefix := ih hrest
          rw [List.reverse_cons] at hprefix
          exact (List.prefix_append _ _).trans hprefix

/-- No token is taken where another one stands. -/
theorem state_of_eat_false {kind : TokenKind} (hrun : eat kind ctx s = .ok (false, s')) :
    s' = s := by
  obtain ⟨found, t, hfound, hrest⟩ := run_bind.mp hrun
  obtain rfl := still_isAt kind hfound
  cases found with
  | true =>
      obtain ⟨_, u, -, hpure⟩ := run_bind.mp hrest
      cases hpure
  | false => exact (run_pure.mp hrest).2.symm

/-- No turn adds nothing and lets others follow. -/
abbrev NeverSkips (turn : Parse (Turn α)) : Prop :=
  Ensures (fun _ t => t ≠ .skip) turn

theorem run_turn_of_nil (hskip : NeverSkips turn)
    (hrun : repeatFrom turn fuel reversed ctx s = .ok (reversed.reverse, s')) :
    turn ctx s = .ok (.stop, s') := by
  cases fuel with
  | zero => cases hrun
  | succ fuel =>
      obtain ⟨t, s'', hturn, hrest⟩ := run_bind.mp hrun
      have hlonger : ∀ {item : α}, ¬ (item :: reversed).reverse <+: reversed.reverse := by
        intro item hprefix
        have hlength := hprefix.length_le
        rw [List.length_reverse, List.length_reverse] at hlength
        exact Nat.not_succ_le_self _ hlength
      cases t with
      | stop =>
          obtain ⟨-, rfl⟩ := run_pure.mp hrest
          exact hturn
      | skip => exact absurd rfl (hskip hturn)
      | last item =>
          obtain ⟨heq, -⟩ := run_pure.mp hrest
          exact absurd ⟨[], by rw [heq, List.append_nil]⟩ hlonger
      | item item => exact absurd (prefix_of_repeatFrom hrest) hlonger

/-- Only one item is added: by the last turn, or by the one before it. -/
theorem run_turn_of_singleton (hskip : NeverSkips turn)
    (hrun : repeated fuel turn ctx s = .ok ([a], s')) :
    turn ctx s = .ok (.last a, s') ∨
      ∃ t, turn ctx s = .ok (.item a, t) ∧ turn ctx t = .ok (.stop, s') := by
  cases fuel with
  | zero => cases hrun
  | succ fuel =>
      obtain ⟨t, s'', hturn, hrest⟩ := run_bind.mp hrun
      cases t with
      | stop => cases hrest
      | skip => exact absurd rfl (hskip hturn)
      | last item =>
          obtain ⟨heq, rfl⟩ := run_pure.mp hrest
          cases heq
          exact .inl hturn
      | item item =>
          obtain ⟨more, hmore⟩ := prefix_of_repeatFrom hrest
          obtain ⟨rfl, -⟩ := List.cons.inj hmore
          exact .inr ⟨s'', hturn, run_turn_of_nil hskip hrest⟩

end Repetition

end Parse

namespace Descent

variable {d : Descent}

theorem ensures_namedAccess (start : Nat) (object : NodeId) (isOptional inChain : Bool) :
    Ensures (Forest.Is Node.isOperation) (namedAccess start object isOptional inChain) :=
  .next fun _ => .next fun _ => .add rfl

/-- A suffix is a new node. Without one nothing has been read. -/
theorem suffix?_cases {ctx : Context} {s s' : ParseState} {start : Nat} {object : NodeId}
    {isOptional inChain : Bool} {slot : Option NodeId}
    (hrun : d.suffix? start true object isOptional inChain ctx s = .ok (slot, s')) :
    slot = none ∧ isOptional = false ∧ s' = s ∨
      ∃ j, slot = some j ∧ s'.forest.Is Node.isOperation j := by
  obtain ⟨kind, t, hkind, hrest⟩ := run_bind.mp hrun
  obtain rfl := still_kind hkind
  revert hrest
  split
  · exact fun hrest => .inr ((Ensures.ite (.fail _)
      (.next fun _ => .some (ensures_namedAccess ..))) hrest)
  · exact fun hrest => .inr ((Ensures.next fun _ => .next fun _ => .next fun _ =>
      .some (.add rfl)) hrest)
  · exact fun hrest => .inr ((Ensures.next fun (_, _) => .some (.add rfl)) hrest)
  · exact fun hrest => .inr ((Ensures.ite (.fail _) (.next fun _ => .next fun _ =>
      .some (.add rfl))) hrest)
  · exact fun hrest => .inr ((Ensures.ite (.fail _) (.next fun _ => .next fun _ =>
      .some (.add rfl))) hrest)
  · cases isOptional with
    | true => exact fun hrest => .inr (Ensures.some (ensures_namedAccess ..) hrest)
    | false =>
        intro hrest
        obtain ⟨rfl, rfl⟩ := run_pure.mp hrest
        exact .inl ⟨rfl, rfl, rfl⟩

theorem extends_suffixes (start fuel : Nat) (object : NodeId) (inChain : Bool) :
    Extends object (d.suffixes start true fuel object inChain) := by
  induction fuel generalizing object inChain with
  | zero => exact .new (.fail _)
  | succ fuel ih =>
      refine .still (still_isAtMark _) fun isOptional => .ite (.new (.fail _)) ?_
      intro ctx s j s' hrun
      -- An optional dot is taken only if a suffix follows.
      have hsuffix : ∀ {t : ParseState} {k : Option NodeId → Parse NodeId},
          (d.suffix? start true object isOptional (inChain || isOptional) >>= k) ctx t =
            .ok (j, s') →
          (isOptional = false → t = s) → k none = pure object →
          (∀ extended, k (some extended) =
            d.suffixes start true fuel extended (inChain || isOptional)) →
              j = object ∧ s' = s ∨ s'.forest.Is Node.isOperation j := by
        intro t k hrun ht hnone hsome
        obtain ⟨slot, t', hslot, hrest⟩ := run_bind.mp hrun
        rcases suffix?_cases hslot with ⟨rfl, hoptional, rfl⟩ | ⟨extended, rfl, hnew⟩
        · rw [hnone] at hrest
          obtain ⟨rfl, rfl⟩ := run_pure.mp hrest
          exact .inl ⟨rfl, ht hoptional⟩
        · rw [hsome] at hrest
          rcases ih extended (inChain || isOptional) hrest with ⟨rfl, rfl⟩ | hnew'
          · exact .inr hnew
          · exact .inr hnew'
      cases isOptional with
      | false => exact hsuffix hrun (fun _ => rfl) rfl fun _ => rfl
      | true =>
          obtain ⟨_, t, -, hrest⟩ := run_bind.mp hrun
          exact hsuffix hrest (by rintro ⟨⟩) rfl fun _ => rfl

theorem extends_updateBehind (start : Nat) (operand : NodeId) :
    Extends operand (updateBehind start operand) := by
  refine .still still_token fun t => .ite (.new (.next fun found => ?_)) (.pure operand)
  exact .ite (.next fun _ => .add rfl) (.fail _)

theorem extends_operators (start : Nat) (bound : Option Precedence) (afterUnary : Bool)
    (room : Nat) (left : NodeId) :
    Extends left (d.operators start bound afterUnary room left) := by
  induction room generalizing afterUnary left with
  | zero =>
      unfold operators
      refine .still (still_operator? bound) fun found => ?_
      split
      · exact .pure left
      · exact .ite (.new (.fail _)) (.new (.fail _))
  | succ room ih =>
      unfold operators
      refine .still (still_operator? bound) fun found => ?_
      split
      · exact .pure left
      · refine .ite (.new (.fail _)) (.new (.next fun _ => .next fun right => .next fun stop => ?_))
        exact .extend (fun _ h => h) (.add rfl) fun joined => ih false joined

theorem extends_conditionalBehind (start : Nat) (condition : NodeId) :
    Extends condition (d.conditionalBehind start condition) :=
  .eatMark (.next fun _ => .next fun _ => .next fun _ => .next fun _ => .add rfl)
    (.pure condition)

theorem extends_assignmentBehind (start : Nat) (left : NodeId) :
    Extends left (d.assignmentBehind start left) :=
  .still still_kind fun _ => .ite
    (.new (.next fun _ => .next fun _ => .next fun _ => .next fun _ => .add rfl)) (.pure left)

theorem extends_behindPrimary (start : Nat) (i : NodeId) : Extends i (d.behindPrimary start i) :=
  .bind (extends_suffixes ..) fun operand => .bind (extends_updateBehind start operand) fun unary =>
    .bind (extends_operators start none false _ unary) fun binary =>
      .bind (extends_conditionalBehind start binary) fun left => extends_assignmentBehind start left

theorem neverSkips_sequenceTurn : NeverSkips d.sequenceTurn := by
  refine .next fun found => .ite (.next fun i => ?_) ?_
  · intro ctx s t s' hrun
    obtain ⟨rfl, -⟩ := run_pure.mp hrun
    nofun
  · intro ctx s t s' hrun
    obtain ⟨rfl, -⟩ := run_pure.mp hrun
    nofun

/-- Without a comma nothing is read. -/
theorem state_of_sequenceTurn_stop {ctx : Context} {s s' : ParseState}
    (hrun : d.sequenceTurn ctx s = .ok (.stop, s')) : s' = s := by
  obtain ⟨found, t, heat, hrest⟩ := run_bind.mp hrun
  cases found with
  | true =>
      obtain ⟨i, u, -, hpure⟩ := run_bind.mp hrest
      cases hpure
  | false =>
      obtain ⟨-, rfl⟩ := run_pure.mp hrest
      exact state_of_eat_false heat

theorem extends_sequenceBehind (start : Nat) (first : NodeId) :
    Extends first (d.sequenceBehind start first) := by
  intro ctx s j s' hrun
  obtain ⟨others, t, hothers, hrest⟩ := run_bind.mp hrun
  cases hlast : others.getLast? with
  | some last =>
      rw [hlast] at hrest
      exact .inr ((Ensures.next fun _ => .add rfl) hrest)
  | none =>
      rw [hlast] at hrest
      obtain ⟨rfl, rfl⟩ := run_pure.mp hrest
      obtain rfl := List.getLast?_eq_none_iff.mp hlast
      exact .inl ⟨rfl, state_of_sequenceTurn_stop (run_turn_of_nil neverSkips_sequenceTurn hothers)⟩

end Descent
end Untangle
