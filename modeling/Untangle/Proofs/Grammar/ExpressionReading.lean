import Untangle.Grammar.Program
import Untangle.Proofs.Grammar.Followers
import Untangle.Proofs.Grammar.Readings

/-!
# Reading operands

What the goals of the grammar must do with the words of expressions, and what the productions up to
unary operators do with them when the goals that they refer to keep to it.
-/

namespace Untangle

open Parse

/-- The node holds the expression. -/
def MakesExpression (e : ExpressionTree) (g : Forest) (i : NodeId) : Prop :=
  g.Holds (some i) e

/-- The goals that expressions refer to are read as the expressions that they stand for. -/
structure ReadsExpressions (parse : Goal → Parse NodeId) : Prop where
  unary : ∀ {ctx f e place after}, ctx.Plain place.noIn →
    Precedence.unary.level ≤ (e.levelAt place).level → (firstKind after).endsOperand = true →
      (parse .unary).Reads ctx f (e.words place) after (MakesExpression e)
  binary : ∀ {ctx f e place after bound}, ctx.Plain place.noIn →
    Precedence.coalesce.level ≤ bound.level → bound.level ≤ Precedence.multiplicative.level →
      bound.level < (e.levelAt place).level → (firstKind after).EndsRun place.noIn (some bound) →
        (parse (.binary (some bound))).Reads ctx f (e.words place) after (MakesExpression e)
  assignment : ∀ {ctx f e place after}, ctx.Plain place.noIn →
    Precedence.assignment.level ≤ (e.levelAt place).level →
      (firstKind after).endsAssignment = true →
        (parse .assignment).Reads ctx f (e.words place) after (MakesExpression e)

namespace Descent

variable {d : Descent} {ctx : Context} {f : Forest} {e : ExpressionTree} {place : Place}
  {after : List Word} {name : OrdinaryName} {i : NodeId}

theorem firstKind_words_append (e : ExpressionTree) (place : Place) (more : List Word) :
    ∃ w, ExpressionTree.Opening w ∧ firstKind (e.words place ++ more) = w.kind := by
  rcases e.exists_words place with ⟨w, ws, hws, hw⟩
  exact ⟨w, hw, by rw [hws]; rfl⟩

/-!
## Sequences
-/

theorem reads_sequenceTurn (hd : ReadsExpressions d.parse) (hctx : ctx.Plain place.noIn)
    (hlevel : Precedence.assignment.level ≤ (e.levelAt place).level)
    (hafter : (firstKind after).endsAssignment = true) :
    d.sequenceTurn.Reads ctx f (.mark .comma :: e.words place) after fun g t =>
      ∃ i, t = .item i ∧ g.Holds (some i) e := by
  rw [sequenceTurn]
  refine Reads.eatMark ?_
  exact (hd.assignment hctx hlevel hafter).finish fun i g _ hi => .pure ⟨i, rfl, hi⟩

theorem reads_sequenceTurn_stop (hafter : (firstKind after).endsExpression = true) :
    d.sequenceTurn.Reads ctx f [] after fun _ t => t = .stop := by
  rw [sequenceTurn]
  refine Reads.eatMark_other ?_ (.pure rfl)
  intro hcomma
  rw [List.nil_append] at hcomma
  rw [hcomma] at hafter
  cases hafter

/-- Expressions behind commas. -/
theorem reads_sequenceRest (hd : ReadsExpressions d.parse) (hctx : ctx.Plain place.noIn)
    (hlevel : Precedence.assignment.level ≤ place.minimum.level)
    (hafter : (firstKind after).endsExpression = true) (rest : List ExpressionTree) :
    (repeated d.fuel d.sequenceTurn).Reads ctx f
      (rest.flatMap fun e => .mark .comma :: e.words place) after fun g l =>
        List.Forall₂ (fun e i => MakesExpression e g i) rest l := by
  refine Reads.repeated (P := fun more => (firstKind more).endsAssignment = true) ?_ ?_ ?_ ?_ ?_
  · exact fun g h e i hgh hi => hi.enlarged hgh
  · exact TokenKind.endsAssignment_of_endsExpression hafter
  · exact fun e _ more => rfl
  · exact fun g => reads_sequenceTurn_stop hafter
  · intro g e _ more hmore
    exact reads_sequenceTurn hd hctx (ExpressionTree.le_levelAt hlevel) hmore

/-- Without commas the first element is the whole expression. -/
theorem reads_expression_of_assignment {ws : List Word} (hd : ReadsExpressions d.parse)
    (hctx : ctx.Plain place.noIn) (hafter : (firstKind after).endsExpression = true)
    (hfirst : d.assignment.Reads ctx f ws after (MakesExpression e)) :
    d.expression.Reads ctx f ws after (MakesExpression e) := by
  rw [expression]
  refine Reads.offset fun start => hfirst.finish fun first g _ hfirst => ?_
  have hrest := @reads_sequenceRest d ctx g (place.inner .assignment) after hd hctx
    (Nat.le_refl _) hafter []
  refine hrest.finish fun others h hgh hothers => ?_
  cases hothers
  exact .pure (hfirst.enlarged hgh)

theorem reads_expression (hd : ReadsExpressions d.parse) (hctx : ctx.Plain place.noIn)
    (hafter : (firstKind after).endsExpression = true) :
    d.expression.Reads ctx f (e.words place) after (MakesExpression e) := by
  by_cases hlevel : Precedence.assignment.level ≤ (e.levelAt place).level
  · have hends := TokenKind.endsAssignment_of_endsExpression hafter
    exact reads_expression_of_assignment hd hctx hafter (hd.assignment hctx hlevel hends)
  · obtain ⟨first, second, rest, rfl, hplain⟩ : ∃ first second rest,
        e = .sequence first second rest ∧ e.needsParentheses place = false :=
      ExpressionTree.sequence_of_level_lt (Nat.lt_of_not_le hlevel)
    rw [ExpressionTree.words_of_not_needsParentheses hplain, ExpressionTree.plainWords_sequence,
      expression]
    refine Reads.offset fun start => ?_
    have hfirst := @ReadsExpressions.assignment d.parse hd ctx f first (place.leading .assignment)
      (((second :: rest).flatMap fun e => .mark .comma :: e.words (place.inner .assignment)) ++
        after) hctx (ExpressionTree.le_levelAt (Nat.le_refl _)) rfl
    refine hfirst.bind fun a g _ ha => ?_
    have hrest := @reads_sequenceRest d ctx g (place.inner .assignment) after hd hctx
      (Nat.le_refl _) hafter (second :: rest)
    refine hrest.finish fun others h hgh hothers => ?_
    cases hothers with
    | @cons _ b _ others hb hothers =>
        obtain ⟨last, hlast⟩ : ∃ last, (b :: others).getLast? = some last :=
          ⟨_, List.getLast?_eq_some_getLast (List.cons_ne_nil _ _)⟩
        rw [hlast]
        refine Reads.addEnding (by simp) fun h' i hh' hi => ?_
        refine .sequence hi ((ha.enlarged hgh).enlarged hh') (hb.enlarged hh') ?_
        rw [List.forall₂_map_left_iff]
        exact List.Forall₂.flip (hothers.imp fun e i he => he.enlarged hh')

/-!
## Operands
-/

theorem reads_identifier (hctx : ctx.inAsync = false) :
    identifier.Reads ctx f [.name name] after (MakesExpression (.name name)) := by
  rw [identifier]
  refine Reads.token fun c hc => ?_
  refine Reads.isAtIdentifier (by simp [firstKind, Word.name]) ?_
  have hhides : hidesKeyword c.token = false := by
    rw [hidesKeyword, hc.escaped, Bool.false_and]
  have hfirst : (firstKind ([.name name] ++ after) == .identifier) = true := rfl
  rw [if_pos hfirst, hhides, if_neg Bool.false_ne_true]
  refine Reads.read ?_
  rw [hctx, Bool.false_and, if_neg Bool.false_ne_true, anyName]
  refine Reads.token fun c hc => Reads.advance ?_
  exact Reads.add (by simp) fun g i _ hi => .name (hc.value ▸ hi)

theorem reads_primary_name (hctx : ctx.inAsync = false) :
    d.primary.Reads ctx f [.name name] after (MakesExpression (.name name)) := by
  rw [primary]
  refine Reads.token fun c hc => Reads.scanner fun c' _ => ?_
  rw [hc.isContextual (by simp), Bool.false_and, if_neg Bool.false_ne_true]
  exact Reads.isAtIdentifier (by simp [firstKind, Word.name]) (reads_identifier hctx)

theorem reads_grouped (hd : ReadsExpressions d.parse) (hctx : ctx.Plain place.noIn) :
    d.grouped.Reads ctx f
      (.mark .openParen :: (e.plainWords place.unwrapped ++ [.mark .closeParen])) after
      (MakesExpression e) := by
  rw [grouped, ExpressionTree.plainWords_unwrapped]
  refine Reads.advance ?_
  refine Reads.bind (Reads.allowingIn (reads_expression hd hctx.allowingIn rfl)) fun i g _ hi => ?_
  exact Reads.expectMark fun _ => .pure hi

theorem reads_primary_group (hd : ReadsExpressions d.parse) (hctx : ctx.Plain place.noIn) :
    d.primary.Reads ctx f
      (.mark .openParen :: (e.plainWords place.unwrapped ++ [.mark .closeParen])) after
      (MakesExpression e) := by
  rw [primary]
  refine Reads.token fun c hc => Reads.scanner fun c' _ => ?_
  rw [hc.isContextual (by simp), Bool.false_and, if_neg Bool.false_ne_true]
  refine Reads.isAtIdentifier (by simp [firstKind, Word.mark, Word.of]) ?_
  rw [hc.kind]
  exact reads_grouped hd hctx

theorem ne_of_endsAccess {k k' : TokenKind} (h : k.endsAccess = true) (h' : k'.endsAccess = false) :
    k ≠ k' := by
  rintro rfl
  cases h'.symm.trans h

/-- Nothing that starts with these tokens belongs to the operand. -/
theorem reads_suffix? (hafter : (firstKind after).endsAccess = true) (start : Nat) :
    (d.suffix? start true i false false).Reads ctx f [] after fun _ r => r = none := by
  rw [suffix?]
  refine Reads.kind ?_
  rw [List.nil_append]
  split
  · rename_i hk
    exact absurd hk (ne_of_endsAccess hafter rfl)
  · rename_i hk
    exact absurd hk (ne_of_endsAccess hafter rfl)
  · rename_i hk
    exact absurd hk (ne_of_endsAccess hafter rfl)
  · rename_i hk
    exact absurd hk (ne_of_endsAccess hafter rfl)
  · rename_i hk
    exact absurd hk (ne_of_endsAccess hafter rfl)
  · exact .pure rfl

theorem reads_suffixes (hafter : (firstKind after).endsAccess = true) (start fuel : Nat) :
    (d.suffixes start true fuel i false).Reads ctx f [] after fun _ j => j = i := by
  cases fuel with
  | zero => exact Reads.tooDeep
  | succ fuel =>
      rw [suffixes]
      refine Reads.isAtMark ?_
      rw [List.nil_append, beq_eq_false_iff_ne.mpr (ne_of_endsAccess hafter rfl)]
      refine (reads_suffix? hafter start).finish fun r g _ hr => ?_
      subst hr
      exact .pure rfl

/-- A primary expression is the whole operand. -/
theorem reads_leftHandSide {ws : List Word} (hfirst : firstKind (ws ++ after) ≠ .word .«new»)
    (hafter : (firstKind after).endsAccess = true)
    (hprimary : d.primary.Reads ctx f ws after (MakesExpression e)) :
    d.leftHandSideProduction.Reads ctx f ws after (MakesExpression e) := by
  rw [leftHandSideProduction]
  refine Reads.offset fun start => Reads.isAt ?_
  rw [beq_eq_false_iff_ne.mpr hfirst]
  refine hprimary.finish fun i g _ hi => ?_
  refine (reads_suffixes hafter start d.fuel).mono fun h j hgh hj => ?_
  subst hj
  exact hi.enlarged hgh

theorem reads_leftHandSide_name (hctx : ctx.inAsync = false)
    (hafter : (firstKind after).endsAccess = true) :
    d.leftHandSideProduction.Reads ctx f [.name name] after (MakesExpression (.name name)) :=
  reads_leftHandSide (by simp [firstKind, Word.name]) hafter (reads_primary_name hctx)

/-!
## Unary operators
-/

theorem reads_unaryAfter {ws : List Word} (hafter : (firstKind after).endsOperand = true)
    (hoperand : d.leftHandSideProduction.Reads ctx f ws after (MakesExpression e)) :
    d.unaryAfter.Reads ctx f ws after (MakesExpression e) := by
  have hupdate : (firstKind after).isUpdate = false := by
    cases hupdate : (firstKind after).isUpdate with
    | false => rfl
    | true =>
        generalize firstKind after = k at hafter hupdate
        cases k with
        | mark p => cases p <;> first | cases hafter; done | cases hupdate
        | _ => cases hupdate
  rw [unaryAfter]
  refine Reads.offset fun start => hoperand.finish fun i g _ hi => Reads.token fun c hc => ?_
  rw [hc.kind, List.nil_append, hupdate, Bool.false_and, if_neg Bool.false_ne_true]
  exact .pure hi

theorem isTarget_name (h : f.Holds (some i) (.name name)) :
    f.satisfies (some i) Node.isTarget = true := by
  cases h with
  | name hs => simp [Forest.satisfies, hs, Node.isTarget]

theorem reads_updateAfter {operator : UpdateOperator} (hctx : ctx.inAsync = false) :
    d.unaryAfter.Reads ctx f [.name name, .attached operator.kind] after
      (MakesExpression (.update .after operator name)) := by
  have hafter : (firstKind ([.attached operator.kind] ++ after)).endsAccess = true := by
    rw [List.singleton_append, firstKind, TokenKind.endsAccess, Word.attached, operator.isUpdate,
      Bool.or_true]
  rw [unaryAfter]
  refine Reads.offset fun start => ?_
  refine @Reads.bind _ _ _ _ ctx f [.name name] [.attached operator.kind] after _ _
    (reads_leftHandSide_name hctx hafter) fun i g _ hi => ?_
  refine Reads.token fun c hc => ?_
  have hline : c.token.lineBreakBefore = false := (hc.word _ rfl).2.2 rfl
  have hkind : c.token.kind = operator.kind := hc.kind
  rw [hkind, operator.isUpdate, hline, Bool.not_false, Bool.and_self, if_pos rfl]
  refine Reads.isTargetAt ?_
  rw [isTarget_name hi, if_pos rfl]
  refine Reads.advance ?_
  exact Reads.add (by simp) fun h j hgh hj => .update hj (hi.enlarged hgh)

theorem reads_unaryBefore {operator : UnaryOperator} (hd : ReadsExpressions d.parse)
    (hctx : ctx.Plain place.noIn) (hafter : (firstKind after).endsOperand = true) :
    (d.unaryBefore operator.kind).Reads ctx f (.of operator.kind :: e.words (place.inner .unary))
      after (MakesExpression (.unary operator e)) := by
  rw [unaryBefore]
  refine Reads.offset fun start => Reads.advance ?_
  have hoperand := @ReadsExpressions.unary d.parse hd _ f e (place.inner .unary) after
    hctx.deeper (ExpressionTree.le_levelAt (Nat.le_refl _)) hafter
  refine hoperand.deeper.finish fun i g _ hi => Reads.isTargetAt ?_
  rw [operator.isUpdate_eq_false, Bool.false_and, if_neg Bool.false_ne_true]
  exact Reads.addEnding (by simp) fun h j hgh hj => .unary hj (hi.enlarged hgh)

theorem reads_updateBefore {operator : UpdateOperator} (hd : ReadsExpressions d.parse)
    (hctx : ctx.Plain place.noIn) (hafter : (firstKind after).endsOperand = true) :
    (d.unaryBefore operator.kind).Reads ctx f [.of operator.kind, .name name] after
      (MakesExpression (.update .before operator name)) := by
  rw [unaryBefore]
  refine Reads.offset fun start => Reads.advance ?_
  have hoperand := @ReadsExpressions.unary d.parse hd _ f (.name name) (place.inner .unary) after
    hctx.deeper (ExpressionTree.le_levelAt (Nat.le_refl _)) hafter
  rw [ExpressionTree.words_name name rfl] at hoperand
  refine hoperand.deeper.finish fun i g _ hi => Reads.isTargetAt ?_
  rw [isTarget_name hi, Bool.not_true, Bool.and_false, if_neg Bool.false_ne_true]
  exact Reads.addEnding (by simp) fun h j hgh hj => .update hj (hi.enlarged hgh)

theorem reads_unaryProduction (hd : ReadsExpressions d.parse) (hctx : ctx.Plain place.noIn)
    (hlevel : Precedence.unary.level ≤ (e.levelAt place).level)
    (hafter : (firstKind after).endsOperand = true) :
    d.unaryProduction.Reads ctx f (e.words place) after (MakesExpression e) := by
  have haccess : (firstKind after).endsAccess = true := by
    rw [TokenKind.endsAccess, hafter, Bool.true_or]
  rw [unaryProduction]
  refine Reads.kind (Reads.isAtAwait hctx.inAsync ?_)
  rw [if_neg Bool.false_ne_true]
  cases hneeded : e.needsParentheses place with
  | true =>
      rw [ExpressionTree.words_of_needsParentheses hneeded]
      refine reads_unaryAfter hafter (reads_leftHandSide ?_ haccess (reads_primary_group hd hctx))
      simp [firstKind, Word.mark, Word.of]
  | false =>
      rw [ExpressionTree.words_of_not_needsParentheses hneeded]
      rcases ExpressionTree.cases_of_unary_le hlevel with hneeded' | ⟨name, rfl⟩ |
        ⟨operator, operand, rfl⟩ | ⟨form, operator, target, rfl⟩
      · cases hneeded.symm.trans hneeded'
      · exact reads_unaryAfter hafter (reads_leftHandSide_name hctx.inAsync haccess)
      · have hunary : (firstKind ((ExpressionTree.unary operator operand).plainWords place ++
            after)).isUnaryOperator = true := operator.isUnary
        rw [hunary, Bool.true_or, if_pos rfl]
        exact reads_unaryBefore hd hctx hafter
      · cases form with
        | before =>
            have hupdate : (firstKind ((ExpressionTree.update .before operator target).plainWords
              place ++ after)).isUpdate = true := operator.isUpdate
            rw [hupdate, Bool.or_true, if_pos rfl]
            exact reads_updateBefore hd hctx hafter
        | after => exact reads_updateAfter hctx.inAsync

end Descent
end Untangle
