import Untangle.Proofs.Grammar.ExpressionReading

/-!
# Reading operators

A run of operators is followed from its first operand: what has been read so far is the left
operand of the operator that comes next. From that on every goal of the grammar reads the
expressions that it may stand for.
-/

namespace Untangle

open Parse

namespace Descent

variable {d : Descent} {ctx : Context} {f : Forest} {e : ExpressionTree} {place : Place}
  {after : List Word}

/-!
## Binary operators
-/

section Operators

variable {β : Type} {ws : List Word} {made : Forest → β → Prop} {bound : Option Precedence}
  {k : Option (TokenKind × Precedence) → Parse β}

theorem reads_operator? {operator : BinaryOperator}
    (hin : (operator.kind == .word .«in» && ctx.noIn) = false)
    (hbound : ∀ b ∈ bound, b.level < operator.precedence.level)
    (hk : (k (some (operator.kind, operator.precedence))).Reads ctx f
      (.of operator.kind :: ws) after made) :
    (operator? bound >>= k).Reads ctx f (.of operator.kind :: ws) after made := by
  have hbelow : bound.any (operator.precedence ≤ ·) = false := by
    cases bound with
    | none => rfl
    | some b => exact decide_eq_false (Nat.not_le_of_lt (hbound b rfl))
  rw [operator?, bind_assoc]
  refine Reads.kind ?_
  rw [bind_assoc]
  refine Reads.read ?_
  have hfirst : firstKind (.of operator.kind :: ws ++ after) = operator.kind := rfl
  rw [hfirst, hin, if_neg Bool.false_ne_true, operator.binds]
  dsimp only
  rw [hbelow, if_neg Bool.false_ne_true]
  exact hk

theorem reads_operator?_none (hafter : (firstKind (ws ++ after)).EndsRun ctx.noIn bound)
    (hk : (k none).Reads ctx f ws after made) :
    (operator? bound >>= k).Reads ctx f ws after made := by
  rw [operator?, bind_assoc]
  refine Reads.kind ?_
  rw [bind_assoc]
  refine Reads.read ?_
  cases hin : firstKind (ws ++ after) == .word .«in» && ctx.noIn with
  | true => exact hk
  | false =>
      rw [if_neg Bool.false_ne_true]
      cases hbinds : (firstKind (ws ++ after)).binaryPrecedence? with
      | none => exact hk
      | some p =>
          dsimp only
          rcases hafter.binds p hbinds hin with ⟨b, hb, hle⟩
          obtain rfl := Option.mem_def.mp hb
          have habove : (some b).any (p ≤ ·) = true := decide_eq_true hle
          rw [habove, if_pos rfl]
          exact hk

end Operators

section Runs

variable {ws : List Word} {made : Forest → NodeId → Prop} {bound : Option Precedence}

/-- The first operand of a run. -/
theorem reads_binaryProduction_operand (hd : ReadsExpressions d.parse)
    (hctx : ctx.Plain place.noIn) (hlevel : Precedence.unary.level ≤ (e.levelAt place).level)
    (hafter : (firstKind (ws ++ after)).endsOperand = true)
    (hk : ∀ start afterUnary room g i, f.Enlarged g → g.Holds (some i) e →
      (afterUnary = true → e.levelAt place = .unary) →
        (d.operators start bound afterUnary room i).Reads ctx g ws after made) :
    (d.binaryProduction bound).Reads ctx f (e.words place ++ ws) after made := by
  rw [binaryProduction]
  refine Reads.offset fun start => Reads.kind (Reads.isAtAwait hctx.inAsync (Reads.isAt ?_))
  have hprivate : firstKind (e.words place ++ ws ++ after) ≠ .privateName := by
    rcases firstKind_words_append e place (ws ++ after) with ⟨w, hw, hfirst⟩
    rw [List.append_assoc, hfirst]
    exact hw.kind_ne (by simp) (by simp) rfl rfl
  rw [beq_eq_false_iff_ne.mpr hprivate]
  refine Reads.bind (reads_unaryProduction hd hctx hlevel hafter) fun i g hfg hi => ?_
  refine hk start _ _ g i hfg hi fun hunary => ?_
  rw [Bool.or_false, List.append_assoc] at hunary
  exact ExpressionTree.levelAt_of_isUnaryOperator hlevel hunary

/-- One more operator and its right operand. -/
theorem reads_operators {left right : ExpressionTree} {operator : BinaryOperator} {i : NodeId}
    {operand : List Word} {afterUnary : Bool} {start room : Nat}
    (hin : (operator.kind == .word .«in» && ctx.noIn) = false)
    (hbound : ∀ b ∈ bound, b.level < operator.precedence.level)
    (hunary : (operator.kind.isRightAssociative && afterUnary) = false)
    (hright : (d.parse (.binary (some (rightBound operator.kind operator.precedence)))).Reads
      { ctx with depth := ctx.depth + 1 } f operand (ws ++ after) (MakesExpression right))
    (hi : f.Holds (some i) left)
    (hk : ∀ room g j, f.Enlarged g → g.Holds (some j) (.binary left operator right) →
      (d.operators start bound false room j).Reads ctx g ws after made) :
    (d.operators start bound afterUnary room i).Reads ctx f
      (.of operator.kind :: (operand ++ ws)) after made := by
  rw [operators]
  refine reads_operator? hin hbound ?_
  dsimp only
  rw [hunary, if_neg Bool.false_ne_true]
  cases room with
  | zero => exact Reads.tooDeep
  | succ room =>
      refine Reads.advance ?_
      refine hright.deeper.bind fun j g hfg hj => Reads.endOf fun stop => ?_
      refine Reads.addThen (by simp) fun k h hgh hk' => ?_
      exact hk room h k (hfg.trans hgh)
        (.binary hk' ((hi.enlarged hfg).enlarged hgh) (hj.enlarged hgh))

/-- Where a run of operators starts with an expression, it goes on behind the expression. -/
theorem reads_binaryProduction_then (hd : ReadsExpressions d.parse) (hctx : ctx.Plain place.noIn)
    (hlevel : Precedence.coalesce.level ≤ (e.levelAt place).level)
    (hbound : ∀ b ∈ bound, b.level < (e.levelAt place).level)
    (hfollows : (firstKind (ws ++ after)).Follows place.noIn (e.levelAt place))
    (hk : ∀ start afterUnary room g i, f.Enlarged g → g.Holds (some i) e →
      (afterUnary = true → e.levelAt place = .unary) →
        (d.operators start bound afterUnary room i).Reads ctx g ws after made) :
    (d.binaryProduction bound).Reads ctx f (e.words place ++ ws) after made := by
  induction e generalizing place ws made with
  | binary left operator right ih =>
      by_cases hunary : Precedence.unary.level ≤
          ((ExpressionTree.binary left operator right).levelAt place).level
      · exact reads_binaryProduction_operand hd hctx hunary hfollows.ends hk
      rcases ExpressionTree.binary_of_levelAt hlevel (Nat.lt_of_not_le hunary) with
        ⟨_, _, _, _, hplain⟩
      rw [ExpressionTree.levelAt_of_not_needsParentheses hplain] at hbound hfollows hk
      have hin : (operator.kind == .word .«in» && ctx.noIn) = false := by
        rw [ExpressionTree.needsParentheses, Bool.or_eq_false_iff] at hplain
        rw [hctx.noIn, Bool.and_comm]
        exact hplain.2
      rw [ExpressionTree.words_of_not_needsParentheses hplain, ExpressionTree.plainWords_binary,
        List.append_assoc, List.cons_append]
      -- The operation so far is the left operand, so the run goes on behind the left operand.
      refine ih hctx ?_ ?_ ?_ fun start afterUnary room g i hfg hi hflag => ?_
      · exact ExpressionTree.le_levelAt
          (Nat.le_trans operator.level_precedence.1 operator.level_le_leftMinimum)
      · intro b hb
        exact Nat.lt_of_lt_of_le (hbound b hb)
          (ExpressionTree.le_levelAt operator.level_le_leftMinimum)
      · exact operator.follows (ExpressionTree.le_levelAt (Nat.le_refl _))
      · refine reads_operators hin hbound ?_ (hd.binary hctx.deeper operator.coalesce_le_rightBound
            operator.rightBound_le_multiplicative ?_ (operator.endsRun hfollows)) hi
          fun room h j hgh hj => hk start false room h j (hfg.trans hgh) hj (by simp)
        · cases hpower : operator.kind.isRightAssociative with
          | false => rfl
          | true =>
              rw [Bool.true_and, Bool.eq_false_iff]
              intro hunary
              refine operator.unary_lt_leftMinimum hpower (hflag hunary ▸ ?_)
              exact ExpressionTree.le_levelAt (Nat.le_refl _)
        · exact Nat.lt_of_lt_of_le operator.rightBound_lt_rightMinimum
            (ExpressionTree.le_levelAt (Nat.le_refl _))
  | _ =>
      refine reads_binaryProduction_operand hd hctx ?_ hfollows.ends hk
      by_contra hunary
      rcases ExpressionTree.binary_of_levelAt hlevel (Nat.lt_of_not_le hunary) with
        ⟨_, _, _, ⟨⟩, _⟩

end Runs

theorem reads_binaryProduction {bound : Option Precedence} (hd : ReadsExpressions d.parse)
    (hctx : ctx.Plain place.noIn)
    (hlevel : Precedence.coalesce.level ≤ (e.levelAt place).level)
    (hbound : ∀ b ∈ bound, b.level < (e.levelAt place).level ∧
      b.level ≤ Precedence.multiplicative.level)
    (hafter : (firstKind after).EndsRun place.noIn bound) :
    (d.binaryProduction bound).Reads ctx f (e.words place) after (MakesExpression e) := by
  rw [← List.append_nil (e.words place)]
  refine reads_binaryProduction_then hd hctx hlevel (fun b hb => (hbound b hb).1)
    (hafter.follows hbound) fun start afterUnary room g i hfg hi _ => ?_
  rw [operators]
  refine reads_operator?_none ?_ (.pure hi)
  rw [hctx.noIn]
  exact hafter

/-!
## Conditionals
-/

/-- Without a question mark the operation is the whole conditional. -/
theorem reads_conditional_of_binary {ws : List Word}
    (hafter : (firstKind after).endsConditional = true)
    (hoperand : (d.binaryProduction none).Reads ctx f ws after (MakesExpression e)) :
    d.conditional.Reads ctx f ws after (MakesExpression e) := by
  rw [conditional]
  refine Reads.offset fun start => ?_
  refine hoperand.finish fun i g _ hi => Reads.eatMark_other ?_ (.pure hi)
  intro hquestion
  rw [List.nil_append] at hquestion
  rw [hquestion] at hafter
  cases hafter

theorem reads_conditional_operand (hd : ReadsExpressions d.parse) (hctx : ctx.Plain place.noIn)
    (hlevel : Precedence.coalesce.level ≤ (e.levelAt place).level)
    (hafter : (firstKind after).endsConditional = true) :
    d.conditional.Reads ctx f (e.words place) after (MakesExpression e) :=
  reads_conditional_of_binary hafter
    (reads_binaryProduction hd hctx hlevel (by simp) (TokenKind.endsRun_of_endsConditional hafter))

theorem reads_conditional (hd : ReadsExpressions d.parse) (hctx : ctx.Plain place.noIn)
    (hlevel : Precedence.conditional.level ≤ (e.levelAt place).level)
    (hafter : (firstKind after).endsAssignment = true) :
    d.conditional.Reads ctx f (e.words place) after (MakesExpression e) := by
  by_cases hcoalesce : Precedence.coalesce.level ≤ (e.levelAt place).level
  · exact reads_conditional_operand hd hctx hcoalesce
      (TokenKind.endsConditional_of_endsAssignment hafter)
  · obtain ⟨condition, whenTrue, whenFalse, rfl, hplain⟩ :=
      ExpressionTree.conditional_of_levelAt hlevel (Nat.lt_of_not_le hcoalesce)
    rw [ExpressionTree.words_of_not_needsParentheses hplain,
      ExpressionTree.plainWords_conditional, conditional]
    refine Reads.offset fun start => ?_
    have hcondition := @reads_binaryProduction d ctx f condition (place.leading .coalesce)
      (.mark .question :: (whenTrue.words (.enclosed .assignment) ++
        .mark .colon :: whenFalse.words (place.inner .assignment)) ++ after) none hd hctx
      (ExpressionTree.le_levelAt (Nat.le_refl _)) (by simp) TokenKind.endsRun_question
    refine hcondition.bind fun i g hfg hi => Reads.eatMark ?_
    rw [if_pos rfl]
    have htrue := @ReadsExpressions.assignment d.parse hd _ g whenTrue (.enclosed .assignment)
      (.mark .colon :: whenFalse.words (place.inner .assignment) ++ after) hctx.allowingIn
      (ExpressionTree.le_levelAt (Nat.le_refl _)) rfl
    refine htrue.allowingIn.bind fun j g' hgg' hj => Reads.expectMark fun _ => ?_
    have hfalse := @ReadsExpressions.assignment d.parse hd ctx g' whenFalse
      (place.inner .assignment) after hctx (ExpressionTree.le_levelAt (Nat.le_refl _)) hafter
    refine hfalse.finish fun k h hgh hk => Reads.addEnding (by simp) fun h' l hh' hl => ?_
    exact .conditional hl (((hi.enlarged hgg').enlarged hgh).enlarged hh')
      ((hj.enlarged hgh).enlarged hh') (hk.enlarged hh')

/-!
## Assignments
-/

theorem reads_arrowStart? {β : Type} {ws : List Word} {made : Forest → β → Prop}
    {k : Option Bool → Parse β} (hws : ∃ w ws', ws = w :: ws' ∧ ExpressionTree.Opening w)
    (hk : (k none).Reads ctx f ws after made) : (arrowStart? >>= k).Reads ctx f ws after made := by
  obtain ⟨w, ws', rfl, hw⟩ := hws
  rw [arrowStart?, bind_assoc]
  refine Reads.scanner fun c hc => ?_
  rw [hc.isContextual (by simp), Bool.false_and, if_neg Bool.false_ne_true, bind_assoc]
  refine Reads.isAtIdentifier hw.not_declares ?_
  rw [Scanner.Faces.arrowFollows hc, Scanner.Faces.parametersFollow hc, Bool.and_false,
    if_neg Bool.false_ne_true]
  split <;> exact hk

theorem reads_assignmentTarget {target : OrdinaryName} {i : NodeId}
    (hi : f.Holds (some i) (.name target)) (operator : TokenKind) :
    (assignmentTarget i operator).Reads ctx f [] after fun _ _ => True := by
  cases hi with
  | name hs =>
      rw [assignmentTarget]
      refine Reads.node? ?_
      rw [hs]
      exact .pure trivial

/-- Without an assignment operator the conditional is the whole assignment. -/
theorem reads_assignmentProduction_of_conditional {noIn : Bool} {ws : List Word}
    (hctx : ctx.Plain noIn) (hafter : (firstKind after).endsAssignment = true)
    (hws : ∃ w ws', ws = w :: ws' ∧ ExpressionTree.Opening w)
    (hconditional : d.conditional.Reads ctx f ws after (MakesExpression e)) :
    d.assignmentProduction.Reads ctx f ws after (MakesExpression e) := by
  rw [assignmentProduction]
  refine Reads.read (Reads.isAt ?_)
  rw [hctx.inGenerator, Bool.false_and, if_neg Bool.false_ne_true]
  refine reads_arrowStart? hws (Reads.offset fun start => ?_)
  refine hconditional.finish fun i g _ hi => Reads.kind ?_
  rw [List.nil_append, TokenKind.isAssignment_of_endsAssignment hafter,
    if_neg Bool.false_ne_true]
  exact .pure hi

theorem reads_assignmentProduction (hd : ReadsExpressions d.parse) (hctx : ctx.Plain place.noIn)
    (hlevel : Precedence.assignment.level ≤ (e.levelAt place).level)
    (hafter : (firstKind after).endsAssignment = true) :
    d.assignmentProduction.Reads ctx f (e.words place) after (MakesExpression e) := by
  by_cases hconditional : Precedence.conditional.level ≤ (e.levelAt place).level
  · exact reads_assignmentProduction_of_conditional hctx hafter (e.exists_words place)
      (reads_conditional hd hctx hconditional hafter)
  · obtain ⟨target, operator, value, rfl, hplain⟩ :=
      ExpressionTree.assignment_of_levelAt hlevel (Nat.lt_of_not_le hconditional)
    have hws := (ExpressionTree.assignment target operator value).exists_words place
    rw [ExpressionTree.words_of_not_needsParentheses hplain,
      ExpressionTree.plainWords_assignment] at hws ⊢
    rw [assignmentProduction]
    refine Reads.read (Reads.isAt ?_)
    rw [hctx.inGenerator, Bool.false_and, if_neg Bool.false_ne_true]
    refine reads_arrowStart? hws (Reads.offset fun start => ?_)
    have hends : (firstKind (.of operator.kind :: value.words (place.inner .assignment) ++
        after)).endsConditional = true := by
      rw [List.cons_append, firstKind, TokenKind.endsConditional]
      exact Bool.or_eq_true_iff.mpr (.inr operator.isAssignment)
    have hname : Precedence.coalesce.level ≤ Precedence.leftHandSide.level := by decide
    have htarget := @reads_conditional_operand d ctx f (.name target) (place.leading .leftHandSide)
      (.of operator.kind :: value.words (place.inner .assignment) ++ after) hd hctx
      (ExpressionTree.le_levelAt hname) hends
    rw [ExpressionTree.words_name target rfl] at htarget
    refine htarget.bind fun i g hfg hi => Reads.kind ?_
    have hoperator : firstKind (.of operator.kind :: value.words (place.inner .assignment) ++
      after) = operator.kind := rfl
    rw [hoperator, operator.isAssignment, if_pos rfl]
    refine (reads_assignmentTarget hi operator.kind).silent fun _ g' hgg' _ => Reads.advance ?_
    have hvalue := @ReadsExpressions.assignment d.parse hd ctx g' value (place.inner .assignment)
      after hctx (ExpressionTree.le_levelAt (Nat.le_refl _)) hafter
    refine hvalue.finish fun j h hgh hj => Reads.addEnding (by simp) fun h' k hh' hk => ?_
    exact .assignment hk (((hi.enlarged hgg').enlarged hgh).enlarged hh') (hj.enlarged hh')

end Descent

/-- Every goal reads the expressions that it may stand for. -/
theorem readsExpressions_parseGoal (fuel : Nat) : ReadsExpressions (parseGoal fuel) := by
  induction fuel with
  | zero =>
      exact ⟨fun _ _ _ => Reads.tooDeep, fun _ _ _ _ _ => Reads.tooDeep, fun _ _ _ => Reads.tooDeep⟩
  | succ fuel ih =>
      refine ⟨fun hctx hlevel hafter => ?_, fun hctx hcoalesce hbound hlevel hafter => ?_,
        fun hctx hlevel hafter => ?_⟩
      · exact Descent.reads_unaryProduction ih hctx hlevel hafter
      · refine Descent.reads_binaryProduction ih hctx
          (Nat.le_trans hcoalesce (Nat.le_of_lt hlevel)) (fun b hb => ?_) hafter
        obtain rfl := Option.some.inj hb
        exact ⟨hlevel, hbound⟩
      · exact Reads.deeper (Descent.reads_assignmentProduction ih hctx.deeper hlevel hafter)

end Untangle
