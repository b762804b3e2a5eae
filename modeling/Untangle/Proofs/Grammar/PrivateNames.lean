import Untangle.Proofs.Grammar.Continuations
import Untangle.Proofs.Grammar.Rows

/-!
# Where private names stand alone

A private name may be the operand of an operator, in front of `in`. It is the operand that was asked
for if that operator leaves the `in` to an outer one, which the operators do that bind at least as
tightly as `in`.
-/

namespace Untangle

open Parse

namespace Node

def isPrivateName : Node Slot → Bool
  | .name .privateName _ => true
  | _ => false

/-- Any node but a private name. -/
def isCommon (n : Node Slot) : Bool :=
  !n.isPrivateName

theorem isCommon_of_isOperation (n : Node Slot) (h : n.isOperation = true) :
    n.isCommon = true := by
  cases n <;> first | rfl | cases h

end Node

theorem Forest.Is.not_privateName {f : Forest} {i : NodeId} (h : f.Is Node.isCommon i) :
    ¬ f.Is Node.isPrivateName i := by
  rw [Forest.Is, Forest.satisfies] at h ⊢
  cases hn : f.node? (some i) with
  | none =>
      rw [hn] at h
      cases h
  | some n =>
      rw [hn, Option.any_some] at h
      rw [Option.any_some]
      simpa [Node.isCommon] using h

namespace Parse

/-- The action answers no private name. -/
abbrev AnswersCommon (act : Parse NodeId) : Prop :=
  Ensures (Forest.Is Node.isCommon) act

namespace Ensures

variable {α : Type} {post : Forest → α → Prop} {act : Parse α}

theorem withReader {change : Context → Context} (h : Ensures post act) :
    Ensures post (withReader change act) :=
  fun _ _ _ _ hrun => h hrun

theorem deeper (h : Ensures post act) : Ensures post (deeper act) :=
  .next fun _ => .ite (.fail _) (.withReader h)

theorem failAt (offset : Nat) (cause : SyntaxError.Cause) :
    Ensures post (Parse.failAt offset cause) :=
  fun _ _ _ _ hrun => nomatch hrun

theorem optionally {c : Prop} [Decidable c] {first : Parse Unit} {k : Unit → Parse α}
    (hk : Ensures post (k ())) : Ensures post (if c then first >>= k else k ()) :=
  .ite (.next fun _ => hk) hk

/-- What is read behind the answer changes no node. -/
theorem closed {β : Type} {other : α → Parse β} (h : Ensures post act)
    (hother : ∀ a, Quiet (other a)) :
    Ensures post (act >>= fun a => other a >>= fun _ => pure a) := by
  intro ctx s a s' hrun
  obtain ⟨b, t, hact, hrest⟩ := run_bind.mp hrun
  obtain ⟨_, u, hquiet, hpure⟩ := run_bind.mp hrest
  obtain ⟨rfl, rfl⟩ := run_pure.mp hpure
  rw [hother b hquiet]
  exact h hact

end Ensures

theorem common_anyName : AnswersCommon anyName :=
  .next fun _ => .next fun _ => .add rfl

theorem common_identifier : AnswersCommon identifier := by
  refine .next fun t => .next fun found => .ite ?_ (.ite (.fail _) (.fail _))
  exact .ite (.fail _) (.next fun _ => .ite (.fail _) common_anyName)

end Parse

namespace Descent

variable {d : Descent}

/-!
## Primary expressions
-/

theorem common_functionRest (form : FunctionForm) (ident : Slot) (start : Nat)
    (isAsync isGenerator : Bool) :
    AnswersCommon (d.functionRest form ident start isAsync isGenerator) :=
  .next fun (_, _) => .next fun _ => .add rfl

theorem common_functionExpression (isAsync : Bool) :
    AnswersCommon (d.functionExpression isAsync) :=
  .next fun _ => .optionally <| .next fun _ => .next fun _ => .next fun _ => common_functionRest ..

theorem common_literalKey : AnswersCommon literalKey := by
  refine .next fun t => .next fun _ => .add ?_
  split <;> rfl

theorem common_template (tagged : Bool) : AnswersCommon (d.template tagged) :=
  .next fun _ => .next fun _ => .next fun _ => .ite
    (.next fun (_, _) => .next fun _ => .next fun _ => .add rfl)
    (.next fun (_, _) => .next fun _ => .next fun _ => .add rfl)

theorem common_regularExpression : AnswersCommon regularExpression := by
  refine .next fun start => .next fun s => ?_
  extract_lets rescanned
  split
  · exact .failAt _ _
  · exact .next fun _ => .next fun _ => .add rfl

theorem common_single {n : Node Slot} (hn : n.isCommon = true) : AnswersCommon (single n) :=
  .next fun _ => .next fun _ => .add hn

theorem common_arrayLiteral : AnswersCommon d.arrayLiteral :=
  .next fun _ => .next fun _ => .next fun _ => .next fun _ => .add rfl

theorem common_objectLiteral : AnswersCommon d.objectLiteral :=
  .next fun _ => .next fun _ => .next fun _ => .next fun _ => .add rfl

theorem common_classRest (form : ClassForm) (name : Slot) (start : Nat) :
    AnswersCommon (d.classRest form name start) :=
  .next fun _ => .ite
    (.next fun _ => .next fun _ => .next fun _ => .next fun _ => .next fun _ => .add rfl)
    (.next fun _ => .next fun _ => .next fun _ => .next fun _ => .add rfl)

theorem common_classExpression : AnswersCommon d.classExpression :=
  .next fun _ => .next fun _ => .next fun _ => .ite
    (.next fun _ => common_classRest ..) (common_classRest ..)

theorem common_superReference : AnswersCommon superReference := by
  refine .next fun t => .next fun _ => .next fun _ => ?_
  split
  · exact .add rfl
  · exact .add rfl
  · exact .add rfl
  · exact .fail _

theorem common_importReference : AnswersCommon importReference :=
  .next fun _ => .next fun _ => .next fun _ => .ite (.add rfl) (.fail _)

theorem common_expression (hd : AnswersCommon d.assignment) : AnswersCommon d.expression :=
  .next fun start => .extend Node.isCommon_of_isOperation hd fun first =>
    extends_sequenceBehind start first

theorem common_grouped (hd : AnswersCommon d.assignment) : AnswersCommon d.grouped :=
  .next fun _ => .closed (.withReader (common_expression hd)) fun _ => quiet_expectMark .closeParen

theorem common_primary (hd : AnswersCommon d.assignment) : AnswersCommon d.primary := by
  refine .next fun t => .next fun _ => .ite (common_functionExpression true) ?_
  refine .next fun _ => .ite common_identifier ?_
  split
  · exact common_literalKey
  · exact common_literalKey
  · exact common_literalKey
  · exact common_template false
  · exact common_template false
  · exact common_regularExpression
  · exact common_regularExpression
  · exact common_single rfl
  · exact common_single rfl
  · exact common_single rfl
  · exact common_single rfl
  · exact common_grouped hd
  · exact common_arrayLiteral
  · exact common_objectLiteral
  · exact common_functionExpression false
  · exact common_classExpression
  · exact common_superReference
  · exact common_importReference
  · exact .fail _

/-!
## Operands
-/

theorem common_newExpression : AnswersCommon d.newExpressionProduction := by
  refine .next fun start => .next fun _ => .next fun _ => .ite ?_ ?_
  · exact .next fun _ => .next fun _ => .ite (.next fun _ => .add rfl) (.fail _)
  · refine .next fun callee => .next fun node => ?_
    split
    · exact .fail _
    · exact .next fun _ => .ite (.next fun (_, _) => .add rfl) (.next fun _ => .add rfl)

theorem common_leftHandSide (hd : AnswersCommon d.assignment) :
    AnswersCommon d.leftHandSideProduction := by
  refine .next fun start => .next fun _ => .ite ?_ ?_
  · exact .extend Node.isCommon_of_isOperation common_newExpression fun i =>
      extends_suffixes start d.fuel i false
  · exact .extend Node.isCommon_of_isOperation (common_primary hd) fun i =>
      extends_suffixes start d.fuel i false

theorem common_unaryAfter (hd : AnswersCommon d.assignment) : AnswersCommon d.unaryAfter :=
  .next fun start => .extend Node.isCommon_of_isOperation (common_leftHandSide hd) fun i =>
    extends_updateBehind start i

theorem common_unaryBefore (operator : TokenKind) : AnswersCommon (d.unaryBefore operator) :=
  .next fun _ => .next fun _ => .next fun _ => .next fun _ => .ite (.failAt _ _)
    (.next fun _ => .add rfl)

theorem common_await : AnswersCommon d.awaitExpression :=
  .next fun _ => .next fun _ => .next fun _ => .next fun _ => .add rfl

theorem common_unary (hd : AnswersCommon d.assignment) : AnswersCommon d.unaryProduction :=
  .next fun k => .next fun _ => .ite common_await
    (.ite (common_unaryBefore k) (common_unaryAfter hd))

/-!
## Operators
-/

section Operators

variable {ctx : Context} {s s' : ParseState} {i : NodeId} {bound : Option Precedence}

/-- An operand, and the operators behind it. -/
theorem operand_of_binaryProduction (hrun : d.binaryProduction bound ctx s = .ok (i, s')) :
    ∃ left t start afterUnary,
      (if s.scanner.token.kind = .privateName then privateNameOperand else d.unaryProduction)
          ctx s = .ok (left, t) ∧
        d.operators start bound afterUnary Limits.treeDepth left ctx t = .ok (i, s') := by
  obtain ⟨start, s₁, hstart, hkinds⟩ := run_bind.mp hrun
  obtain rfl : s₁ = s := still_offset hstart
  obtain ⟨k, s₂, hk, hawaits⟩ := run_bind.mp hkinds
  obtain rfl : s₂ = s₁ := still_kind hk
  obtain ⟨atAwait, s₃, hawait, hfinds⟩ := run_bind.mp hawaits
  obtain rfl : s₃ = s₂ := still_isAtAwait hawait
  obtain ⟨found, s₄, hfound, hrest⟩ := run_bind.mp hfinds
  by_cases hprivate : s₃.scanner.token.kind = .privateName
  · rw [run_isAt_of_eq hprivate] at hfound
    cases hfound
    obtain ⟨left, t, hleft, hoperators⟩ := run_bind.mp hrest
    rw [if_pos hprivate]
    exact ⟨left, t, start, _, hleft, hoperators⟩
  · rw [run_isAt_of_ne hprivate] at hfound
    cases hfound
    obtain ⟨left, t, hleft, hoperators⟩ := run_bind.mp hrest
    rw [if_neg hprivate]
    exact ⟨left, t, start, _, hleft, hoperators⟩

/-- Behind a private name stands an `in` that is an operator. -/
theorem privateNameOperand_spec (hrun : privateNameOperand ctx s = .ok (i, s')) :
    ctx.noIn = false ∧ s'.scanner.token.kind = .word .«in» ∧
      s'.forest.Is Node.isPrivateName i := by
  have hif : privateNameOperand ctx s =
      (if s.scanner.nextKind == .word .«in» && !ctx.noIn then privateName
        else fail .misplacedPrivateName : Parse NodeId) ctx s :=
    rfl
  rw [hif] at hrun
  split at hrun
  · rename_i hfollowed
    obtain ⟨hkind, hnoIn⟩ := Bool.and_eq_true_iff.mp hfollowed
    obtain ⟨t, s₁, ht, hrest⟩ := run_bind.mp hrun
    obtain rfl : s₁ = s := still_token ht
    obtain ⟨_, s₂, hexpect, hadd⟩ := run_bind.mp hrest
    obtain ⟨-, rfl⟩ := run_expect hexpect
    have hscanner : s'.scanner = s₁.scanner.scan := by
      cases hadd
      rfl
    refine ⟨by simpa using hnoIn, ?_, Ensures.add rfl hadd⟩
    rw [hscanner]
    exact beq_iff_eq.mp hkind
  · cases hrun

/-- An `in` that is an operator is left alone exactly within the bound. -/
theorem run_operator?_in (hnoIn : ctx.noIn = false) (hin : s.scanner.token.kind = .word .«in») :
    operator? bound ctx s =
      .ok (if bound.any (.relational ≤ ·) then none else some (.word .«in», .relational), s) := by
  refine (run_bind_of_ok rfl).trans ((run_bind_of_ok rfl).trans ?_)
  rw [hnoIn, Bool.and_false, if_neg Bool.false_ne_true, hin]
  rfl

/-- An operand in front of an `in` that is an operator is the answer within the bound, and the
left operand of that operator otherwise. -/
theorem operators_in {start room : Nat} {afterUnary : Bool} {left : NodeId}
    (hnoIn : ctx.noIn = false) (hin : s.scanner.token.kind = .word .«in»)
    (hrun : d.operators start bound afterUnary room left ctx s = .ok (i, s')) :
    bound.any (.relational ≤ ·) = true ∧ i = left ∧ s' = s ∨
      bound.any (.relational ≤ ·) = false ∧ s'.forest.Is Node.isOperation i := by
  unfold operators at hrun
  obtain ⟨found, t, hfound, hrest⟩ := run_bind.mp hrun
  rw [run_operator?_in hnoIn hin] at hfound
  cases hbound : bound.any (Precedence.relational ≤ ·) with
  | true =>
      rw [hbound] at hfound
      cases hfound
      obtain ⟨rfl, rfl⟩ := run_pure.mp hrest
      exact .inl ⟨rfl, rfl, rfl⟩
  | false =>
      rw [hbound] at hfound
      cases hfound
      refine .inr ⟨rfl, ?_⟩
      cases room with
      | zero => cases hrest
      | succ room =>
          refine Ensures.next (fun _ => .next fun right => .next fun stop => ?_) hrest
          exact .extend (fun _ h => h) (.add rfl) fun joined => extends_operators ..

/-- A private name is the operand that was asked for where one stands and the operators in question
bind at least as tightly as `in`. -/
theorem binaryProduction_cases (hd : AnswersCommon d.assignment)
    (hrun : d.binaryProduction bound ctx s = .ok (i, s')) :
    (s.scanner.token.kind = .privateName ∧ bound.any (.relational ≤ ·) = true) ∧
        s'.forest.Is Node.isPrivateName i ∨
      ¬ (s.scanner.token.kind = .privateName ∧ bound.any (.relational ≤ ·) = true) ∧
        s'.forest.Is Node.isCommon i := by
  obtain ⟨left, t, start, afterUnary, hleft, hoperators⟩ := operand_of_binaryProduction hrun
  by_cases hprivate : s.scanner.token.kind = .privateName
  · rw [if_pos hprivate] at hleft
    obtain ⟨hnoIn, hin, hname⟩ := privateNameOperand_spec hleft
    rcases operators_in hnoIn hin hoperators with ⟨hbound, rfl, rfl⟩ | ⟨hbound, hoperation⟩
    · exact .inl ⟨⟨hprivate, hbound⟩, hname⟩
    · exact .inr ⟨fun h => Bool.eq_false_iff.mp hbound h.2,
        hoperation.mono Node.isCommon_of_isOperation⟩
  · rw [if_neg hprivate] at hleft
    refine .inr ⟨fun h => hprivate h.1, ?_⟩
    exact Ensures.extend Node.isCommon_of_isOperation (common_unary hd)
      (fun left => extends_operators start bound afterUnary _ left)
      (run_bind.mpr ⟨_, _, hleft, hoperators⟩)

end Operators

/-!
## Assignments
-/

theorem common_conditional (hd : AnswersCommon d.assignment) : AnswersCommon d.conditional := by
  have hbinary : AnswersCommon (d.binaryProduction none) := by
    intro ctx s i s' hrun
    rcases binaryProduction_cases hd hrun with ⟨⟨-, hbound⟩, -⟩ | ⟨-, hcommon⟩
    · cases hbound
    · exact hcommon
  exact .next fun start => .extend Node.isCommon_of_isOperation hbinary fun i =>
    extends_conditionalBehind start i

theorem common_yieldExpression : AnswersCommon d.yieldExpression :=
  .next fun _ => .next fun _ => .next fun _ => .ite (.add rfl) <| .next fun _ => .next fun _ =>
    .ite (.next fun _ => .next fun _ => .add rfl) (.add rfl)

theorem common_arrowFunction (isAsync : Bool) : AnswersCommon (d.arrowFunction isAsync) :=
  .next fun _ => .optionally <| .next fun (_, _) => .next fun _ => .add rfl

theorem common_assignmentProduction (hd : AnswersCommon d.assignment) :
    AnswersCommon d.assignmentProduction := by
  refine .next fun _ => .next fun _ => .ite common_yieldExpression (.next fun start? => ?_)
  split
  · exact common_arrowFunction _
  · exact .next fun start => .extend Node.isCommon_of_isOperation (common_conditional hd) fun i =>
      extends_assignmentBehind start i

end Descent

/-- Expressions are no private names. -/
theorem common_assignment (fuel : Nat) : AnswersCommon (parseGoal fuel .assignment) := by
  induction fuel with
  | zero => exact .fail _
  | succ fuel ih => exact .deeper (Descent.common_assignmentProduction ih)

/-!
## The operands of operators
-/

/-- A private name is an operand exactly where one stands and the operators that may be in that
operand bind more tightly than `in`. Nothing is asked of the operator in front of it, so it may be
the right operand of all operators that bind at least as tightly as `in`. -/
theorem operand_isPrivateName_iff {fuel : Nat} {bound : Option Precedence} {ctx : Context}
    {s s' : ParseState} {i : NodeId} (hrun : parseGoal fuel (.binary bound) ctx s = .ok (i, s')) :
    s'.forest.Is Node.isPrivateName i ↔
      s.scanner.token.kind = .privateName ∧ ∃ b, bound = some b ∧ .relational ≤ b := by
  cases fuel with
  | zero => cases hrun
  | succ fuel =>
      have hbound : bound.any (.relational ≤ ·) = true ↔ ∃ b, bound = some b ∧ .relational ≤ b := by
        simp only [Option.any_eq_true, decide_eq_true_eq]
      rw [← hbound]
      rcases @Descent.binaryProduction_cases ⟨parseGoal fuel, fuel⟩ ctx s s' i bound
          (common_assignment fuel) hrun with
        ⟨hstands, hname⟩ | ⟨hnot, hcommon⟩
      · exact iff_of_true hname hstands
      · exact iff_of_false hcommon.not_privateName hnot

/-- The right operand of a sum in front of `in`. -/
theorem operand_isPrivateName_sum :
    let s : ParseState := ⟨(Scanner.ofString "1 + #x in y").scan.scan.scan, .empty⟩
    ∃ i s', parseGoal 8 (.binary (some .additive)) .outermost s = .ok (i, s') ∧
      s'.forest.Is Node.isPrivateName i := by
  intro s
  have hsome : (parseGoal 8 (.binary (some .additive)) .outermost s).toOption.isSome = true := by
    decide +kernel
  cases hrun : parseGoal 8 (.binary (some .additive)) .outermost s with
  | error e =>
      rw [hrun] at hsome
      cases hsome
  | ok r =>
      exact ⟨r.1, r.2, rfl, (operand_isPrivateName_iff hrun).mpr
        ⟨by decide +kernel, .additive, rfl, by decide⟩⟩

end Untangle
