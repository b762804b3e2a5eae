import Mathlib.Data.List.Induction
import Untangle.Proofs.Grammar.StatementReading
import Untangle.Proofs.Printing.RoundTrip

/-!
# Runs of operators

Names with operators between them and no parentheses. Such a run is read as the tree in which every
operator takes what binds more strongly: the operands stand in the order of the text, and each
operator compares with the operators of its operands as precedence and associativity say.
-/

namespace Untangle

open Parse

/-!
## Runs
-/

/-- Operands and the operators between them. -/
structure OperatorRun where
  first : OrdinaryName
  rest : List (BinaryOperator × OrdinaryName)

namespace OperatorRun

def words (run : OperatorRun) : List Word :=
  .name run.first :: run.rest.flatMap fun item => [.of item.1.kind, .name item.2]

/-- The words with a space between any two. -/
def text (run : OperatorRun) : String :=
  " ".intercalate (run.words.map Word.text)

/-- Two runs with an operator between them. -/
def join (before : OperatorRun) (operator : BinaryOperator) (behind : OperatorRun) : OperatorRun :=
  ⟨before.first, before.rest ++ (operator, behind.first) :: behind.rest⟩

theorem words_join (before : OperatorRun) (operator : BinaryOperator) (behind : OperatorRun) :
    (before.join operator behind).words = before.words ++ .of operator.kind :: behind.words := by
  simp [words, join]

end OperatorRun

/-!
## Grouping
-/

namespace BinaryOperator

/-- An operation with the inner operator may be the left operand without parentheses. -/
def TakesLeft (operator inner : BinaryOperator) : Prop :=
  if operator.kind.isRightAssociative then operator.precedence < inner.precedence
  else operator.precedence ≤ inner.precedence

/-- An operation with the inner operator may be the right operand without parentheses. -/
def TakesRight (operator inner : BinaryOperator) : Prop :=
  if operator.kind.isRightAssociative then operator.precedence ≤ inner.precedence
  else operator.precedence < inner.precedence

instance (operator inner : BinaryOperator) : Decidable (operator.TakesLeft inner) :=
  inferInstanceAs (Decidable (if operator.kind.isRightAssociative
    then operator.precedence < inner.precedence else operator.precedence ≤ inner.precedence))

variable {operator inner : BinaryOperator}

/-- Only `**` binds as strongly as `**`. -/
theorem precedence_lt_of_not_power (h : operator.kind.isRightAssociative = true)
    (hinner : inner.kind.isRightAssociative = false) : inner.precedence < operator.precedence := by
  rw [precedence_of_power h]
  exact Nat.lt_of_le_of_lt (TokenKind.level_le_multiplicative inner.binds hinner) (by decide)

/-- Of two operators side by side the left one is in the left operand, or the right one is in the
right operand. -/
theorem takesRight_of_not_takesLeft (h : ¬ operator.TakesLeft inner) :
    inner.TakesRight operator := by
  unfold TakesLeft at h
  unfold TakesRight
  cases hpower : operator.kind.isRightAssociative with
  | false =>
      rw [hpower, if_neg Bool.false_ne_true] at h
      have hlt : inner.precedence < operator.precedence := Nat.lt_of_not_le h
      split
      · exact Nat.le_of_lt hlt
      · exact hlt
  | true =>
      rw [hpower, if_pos rfl] at h
      split
      · exact Nat.le_of_not_lt h
      · rename_i hinner
        exact precedence_lt_of_not_power hpower (Bool.eq_false_iff.mpr hinner)

end BinaryOperator

namespace ExpressionTree

/-- The operator of a binary operation. -/
def operator? : ExpressionTree → Option BinaryOperator
  | .binary _ operator _ => some operator
  | _ => none

/-- From left to right the operands and operators of the tree are the run. -/
inductive InOrder : ExpressionTree → OperatorRun → Prop
  | name (x : OrdinaryName) : InOrder (.name x) ⟨x, []⟩
  | binary {left right before behind} (operator : BinaryOperator) (hleft : InOrder left before)
      (hright : InOrder right behind) :
      InOrder (.binary left operator right) (before.join operator behind)

/-- Each operator takes operands that it may take without parentheses. -/
inductive Grouped : ExpressionTree → Prop
  | name (x : OrdinaryName) : Grouped (.name x)
  | binary {left operator right} (hleft : Grouped left) (hright : Grouped right)
      (htakesLeft : ∀ inner ∈ left.operator?, operator.TakesLeft inner)
      (htakesRight : ∀ inner ∈ right.operator?, operator.TakesRight inner) :
      Grouped (.binary left operator right)

/-- One more operator and operand behind a tree. -/
def attach (operator : BinaryOperator) (x : OrdinaryName) : ExpressionTree → ExpressionTree
  | .binary left inner right =>
      if operator.TakesLeft inner then .binary (.binary left inner right) operator (.name x)
      else .binary left inner (attach operator x right)
  | e => .binary e operator (.name x)

variable {e : ExpressionTree} {run : OperatorRun} {operator : BinaryOperator} {x : OrdinaryName}

theorem InOrder.attach (he : e.InOrder run) :
    (e.attach operator x).InOrder ⟨run.first, run.rest ++ [(operator, x)]⟩ := by
  induction he with
  | name y => exact .binary operator (.name y) (.name x)
  | @binary left right before behind inner hleft hright _ ihright =>
      rw [ExpressionTree.attach]
      split
      · exact .binary operator (.binary inner hleft hright) (.name x)
      · have := InOrder.binary inner hleft ihright
        simpa [OperatorRun.join] using this

/-- What stands behind a tree is the operator, or the operator of the tree stays. -/
theorem operator?_attach (e : ExpressionTree) (operator : BinaryOperator) (x : OrdinaryName) :
    (e.attach operator x).operator? = some operator ∨
      (e.attach operator x).operator? = e.operator? := by
  cases e with
  | binary left inner right =>
      rw [attach]
      split
      · exact .inl rfl
      · exact .inr rfl
  | _ => exact .inl rfl

theorem Grouped.attach (he : e.Grouped) : (e.attach operator x).Grouped := by
  induction he with
  | name y => exact .binary (.name y) (.name x) nofun nofun
  | @binary left inner right hleft hright htakesLeft htakesRight _ ihright =>
      rw [ExpressionTree.attach]
      split
      · rename_i htakes
        refine .binary (.binary hleft hright htakesLeft htakesRight) (.name x) ?_ nofun
        intro _ hinner
        obtain rfl := Option.some.inj hinner
        exact htakes
      · rename_i htakes
        refine .binary hleft ihright htakesLeft fun other hother => ?_
        rcases operator?_attach right operator x with hsame | hsame <;> rw [hsame] at hother
        · obtain rfl := Option.some.inj hother
          exact BinaryOperator.takesRight_of_not_takesLeft htakes
        · exact htakesRight other hother

/-- Every run is the text of a grouped tree. -/
theorem exists_grouped (run : OperatorRun) : ∃ e : ExpressionTree, e.InOrder run ∧ e.Grouped := by
  obtain ⟨first, rest⟩ := run
  induction rest using List.reverseRecOn with
  | nil => exact ⟨.name first, .name first, .name first⟩
  | append_singleton rest item ih =>
      rcases ih with ⟨e, horder, hgrouped⟩
      exact ⟨e.attach item.1 item.2, horder.attach, hgrouped.attach⟩

/-!
## Places of grouped operands
-/

theorem precedence_of_operator? {operator : BinaryOperator} (h : e.operator? = some operator) :
    e.precedence = operator.precedence := by
  cases e with
  | binary left inner right =>
      obtain rfl := Option.some.inj h
      rfl
  | _ => cases h

theorem Grouped.precedence_eq_primary (he : e.Grouped) (h : e.operator? = none) :
    e.precedence = .primary := by
  cases he with
  | name x => rfl
  | binary hleft hright htakesLeft htakesRight => cases h

/-- A left operand is bound strongly enough for the operator behind it. -/
theorem Grouped.leftMinimum_le {operator : BinaryOperator} (he : e.Grouped)
    (htakes : ∀ inner ∈ e.operator?, operator.TakesLeft inner) :
    (Printer.operandMinima operator.kind operator.precedence).1.level ≤ e.precedence.level := by
  cases hinner : e.operator? with
  | none =>
      rw [he.precedence_eq_primary hinner]
      exact level_le_primary _
  | some inner =>
      have htakes := htakes inner hinner
      unfold BinaryOperator.TakesLeft at htakes
      rw [precedence_of_operator? hinner]
      cases hpower : operator.kind.isRightAssociative with
      | false =>
          rw [hpower, if_neg Bool.false_ne_true] at htakes
          rw [TokenKind.operandMinima_of_not_power hpower]
          exact htakes
      | true =>
          rw [hpower, if_pos rfl, operator.precedence_of_power hpower] at htakes
          exact absurd (Nat.lt_of_lt_of_le htakes inner.level_precedence.2) (Nat.lt_irrefl _)

/-- A right operand is bound strongly enough for the operator in front of it. -/
theorem Grouped.rightBound_lt {operator : BinaryOperator} (he : e.Grouped)
    (htakes : ∀ inner ∈ e.operator?, operator.TakesRight inner) :
    (Descent.rightBound operator.kind operator.precedence).level < e.precedence.level := by
  cases hinner : e.operator? with
  | none =>
      rw [he.precedence_eq_primary hinner]
      exact Nat.lt_of_le_of_lt operator.rightBound_le_multiplicative (by decide)
  | some inner =>
      have htakes := htakes inner hinner
      unfold BinaryOperator.TakesRight at htakes
      rw [precedence_of_operator? hinner, Descent.rightBound]
      cases hpower : operator.kind.isRightAssociative with
      | false =>
          rw [hpower, if_neg Bool.false_ne_true] at htakes
          rw [if_neg Bool.false_ne_true]
          exact htakes
      | true =>
          rw [hpower, if_pos rfl, operator.precedence_of_power hpower] at htakes
          rw [if_pos rfl]
          exact Nat.lt_of_lt_of_le (by decide) htakes

end ExpressionTree

/-!
## Reading runs
-/

/-- Right operands are read as the runs that they stand for. -/
structure ReadsRuns (parse : Goal → Parse NodeId) : Prop extends ReadsExpressions parse where
  run : ∀ {ctx f run after bound} {e : ExpressionTree}, ctx.Plain false → e.InOrder run →
    e.Grouped → bound.level < e.precedence.level → bound.level ≤ Precedence.multiplicative.level →
      (firstKind after).EndsRun false (some bound) →
        (parse (.binary (some bound))).Reads ctx f run.words after (MakesExpression e)

namespace Descent

variable {d : Descent} {ctx : Context} {f : Forest} {e : ExpressionTree} {run : OperatorRun}
  {after : List Word}

/-- Where a run starts with the run of a tree, it goes on behind the tree. -/
theorem reads_binaryProduction_joined {ws : List Word} {made : Forest → NodeId → Prop}
    {bound : Option Precedence} (hd : ReadsRuns d.parse) (hctx : ctx.Plain false)
    (he : e.InOrder run) (hgrouped : e.Grouped)
    (hbound : ∀ b ∈ bound, b.level < e.precedence.level)
    (hfollows : (firstKind (ws ++ after)).Follows false e.precedence)
    (hk : ∀ start room g i, f.Enlarged g → g.Holds (some i) e →
      (d.operators start bound false room i).Reads ctx g ws after made) :
    (d.binaryProduction bound).Reads ctx f (run.words ++ ws) after made := by
  induction he generalizing ws made with
  | name x =>
      have hplace : (ExpressionTree.name x).levelAt (.enclosed .comma) = .primary := rfl
      refine @reads_binaryProduction_operand d ctx f (.name x) (.enclosed .comma) after ws made
        bound hd.toReadsExpressions hctx (hplace ▸ by decide) hfollows.ends ?_
      intro start afterUnary room g i hfg hi hunary
      obtain rfl : afterUnary = false := by
        rw [Bool.eq_false_iff]
        intro hflag
        cases (hunary hflag).symm.trans hplace
      exact hk start room g i hfg hi
  | @binary left right before behind operator hleft hright ih _ =>
      cases hgrouped with
      | binary hgleft hgright htakesLeft htakesRight =>
          rw [OperatorRun.words_join, List.append_assoc, List.cons_append]
          -- The operation so far is the left operand, so the run goes on behind the left operand.
          refine ih hgleft ?_ ?_ fun start room g i hfg hi => ?_
          · intro b hb
            exact Nat.lt_of_lt_of_le (hbound b hb) (Nat.le_trans operator.level_le_leftMinimum
              (hgleft.leftMinimum_le htakesLeft))
          · exact operator.follows (hgleft.leftMinimum_le htakesLeft)
          · have hoperand := @ReadsRuns.run d.parse hd _ g behind (ws ++ after) _ right
              hctx.deeper hright hgright (hgright.rightBound_lt htakesRight)
              operator.rightBound_le_multiplicative (operator.endsRun hfollows)
            have hin : (operator.kind == .word .«in» && ctx.noIn) = false := by
              rw [hctx.noIn, Bool.and_false]
            exact reads_operators hin hbound (by rw [Bool.and_false]) hoperand hi
              fun room h j hgh hj => hk start room h j (hfg.trans hgh) hj

theorem reads_binaryProduction_run {bound : Option Precedence} (hd : ReadsRuns d.parse)
    (hctx : ctx.Plain false) (he : e.InOrder run) (hgrouped : e.Grouped)
    (hbound : ∀ b ∈ bound, b.level < e.precedence.level ∧
      b.level ≤ Precedence.multiplicative.level)
    (hafter : (firstKind after).EndsRun false bound) :
    (d.binaryProduction bound).Reads ctx f run.words after (MakesExpression e) := by
  rw [← List.append_nil run.words]
  refine reads_binaryProduction_joined hd hctx he hgrouped (fun b hb => (hbound b hb).1)
    (hafter.follows hbound) fun start room g i hfg hi => ?_
  rw [operators]
  exact reads_operator?_none (hctx.noIn ▸ hafter) (.pure hi)

end Descent

/-- Every goal for right operands reads the runs that it may stand for. -/
theorem readsRuns_parseGoal (fuel : Nat) : ReadsRuns (parseGoal fuel) := by
  induction fuel with
  | zero => exact ⟨readsExpressions_parseGoal 0, fun _ _ _ _ _ _ => Reads.tooDeep⟩
  | succ fuel ih =>
      refine ⟨readsExpressions_parseGoal _, fun hctx he hgrouped hbound hmax hafter => ?_⟩
      refine Descent.reads_binaryProduction_run ih hctx he hgrouped (fun b hb => ?_) hafter
      obtain rfl := Option.some.inj hb
      exact ⟨hbound, hmax⟩

/-!
## Programs
-/

theorem spells_intercalate {ws : List Word} (hws : ∀ w ∈ ws, w.Proper) :
    Spells ([' '].intercalate (ws.map (·.text.toList))) ws := by
  induction ws with
  | nil => exact .done rfl
  | cons w ws ih =>
      have hw := hws w List.mem_cons_self
      have hrest := ih fun w' hw' => hws w' (List.mem_cons_of_mem _ hw')
      cases ws with
      | nil =>
          have h := @Spells.word [] [] w [] hw rfl (fun _ => rfl) nofun (.done rfl)
          simpa using h
      | cons w' ws =>
          rw [List.map_cons, List.map_cons, List.intercalate_cons_cons, List.append_assoc]
          refine @Spells.word [] _ w _ hw rfl (fun _ => rfl) (hw.endsBefore_space _) ?_
          exact @Spells.spaces _ _ [' '] hrest rfl

namespace OperatorRun

variable {run : OperatorRun}

theorem firstKind_words (run : OperatorRun) (after : List Word) :
    firstKind (run.words ++ after) = .identifier :=
  rfl

theorem exists_words (run : OperatorRun) :
    ∃ w ws, run.words = w :: ws ∧ ExpressionTree.Opening w :=
  ⟨_, _, rfl, .name run.first⟩

/-- No operand is a label. -/
theorem secondKind_ne_colon (run : OperatorRun) : firstKind run.words.tail ≠ .mark .colon := by
  obtain ⟨first, rest⟩ := run
  cases rest with
  | nil => simp [words, firstKind]
  | cons item rest => exact item.1.kind_ne_colon

theorem proper_of_mem_words {w : Word} (hw : w ∈ run.words) : w.Proper := by
  simp only [words, List.mem_cons, List.mem_flatMap, List.not_mem_nil, or_false] at hw
  rcases hw with rfl | ⟨item, _, rfl | rfl⟩
  · exact .name _
  · exact item.1.proper
  · exact .name _

theorem spells_text (run : OperatorRun) : Spells run.text.toList run.words := by
  rw [text, String.toList_intercalate, List.map_map]
  exact spells_intercalate fun w hw => proper_of_mem_words hw

end OperatorRun

namespace Descent

variable {d : Descent} {ctx : Context} {f : Forest} {e : ExpressionTree} {run : OperatorRun}

/-- At the end of the text a semicolon may be left out. -/
theorem reads_semicolon_end {β : Type} {made : Forest → β → Prop} {k : Unit → Parse β}
    (hk : (k ()).Reads ctx f [] [] made) : (semicolon >>= k).Reads ctx f [] [] made := by
  rw [semicolon, bind_assoc]
  refine Reads.eatMark_other (by simp [firstKind]) ?_
  rw [if_neg Bool.false_ne_true, bind_assoc]
  refine Reads.token fun c hc => ?_
  have hends : c.token.endsStatement = true := by
    simp [Token.endsStatement, hc.kind, firstKind]
  rw [hends, if_pos rfl]
  exact hk

/-- The goal for assignments reads a run up to the end of the text. -/
def ReadsWholeRun (parse : Goal → Parse NodeId) (run : OperatorRun) (e : ExpressionTree) : Prop :=
  ∀ {ctx f}, ctx.Plain false → (parse .assignment).Reads ctx f run.words [] (MakesExpression e)

theorem reads_assignmentProduction_run (hd : ReadsRuns d.parse) (hctx : ctx.Plain false)
    (he : e.InOrder run) (hgrouped : e.Grouped) :
    d.assignmentProduction.Reads ctx f run.words [] (MakesExpression e) := by
  have hbinary := @reads_binaryProduction_run d ctx f e run [] none hd hctx he hgrouped (by simp)
    (TokenKind.endsRun_of_endsConditional rfl)
  exact reads_assignmentProduction_of_conditional hctx rfl run.exists_words
    (reads_conditional_of_binary rfl hbinary)

theorem readsWholeRun_parseGoal (he : e.InOrder run) (hgrouped : e.Grouped) (fuel : Nat) :
    ReadsWholeRun (parseGoal fuel) run e := by
  intro ctx f hctx
  cases fuel with
  | zero => exact Reads.tooDeep
  | succ fuel =>
      exact Reads.deeper
        (reads_assignmentProduction_run (readsRuns_parseGoal fuel) hctx.deeper he hgrouped)

theorem reads_expressionStatement_run (hd : ReadsExpressions d.parse)
    (hassignment : ReadsWholeRun d.parse run e) (hctx : ctx.Plain false) :
    d.expressionStatement.Reads ctx f run.words [] (MakesStatement (.expression e)) := by
  have hexpression : d.expression.Reads ctx f run.words [] (MakesExpression e) :=
    @reads_expression_of_assignment d ctx f e (.enclosed .comma) [] run.words hd hctx rfl
      (hassignment hctx)
  rw [expressionStatement]
  refine Reads.offset fun start => hexpression.finish fun i g _ hi => ?_
  refine Reads.endOf fun stop => reads_semicolon_end (Reads.add (by simp) fun h j hgh hj => ?_)
  exact .expression hj (hi.enlarged hgh)

theorem reads_statementProduction_run (hd : ReadsExpressions d.parse)
    (hassignment : ReadsWholeRun d.parse run e) (hctx : ctx.Plain false) :
    d.statementProduction.Reads ctx f run.words [] (MakesStatement (.expression e)) := by
  have hstatement := @reads_expressionStatement_run d ctx f e run hd hassignment hctx
  rw [statementProduction]
  refine Reads.scanner fun c hc => ?_
  rw [hc.kind, run.firstKind_words]
  dsimp only
  rw [hc.isContextual (by simp), Bool.false_and, if_neg Bool.false_ne_true, otherStatement]
  refine Reads.isAtIdentifier (by rw [run.firstKind_words]; decide) (Reads.scanner fun c' hc' => ?_)
  have hsecond : c'.nextKind = firstKind run.words.tail := by
    rw [List.append_nil] at hc'
    exact (Scanner.Faces.scan hc').kind
  rw [hsecond, beq_eq_false_iff_ne.mpr run.secondKind_ne_colon, Bool.and_false,
    if_neg Bool.false_ne_true]
  exact hstatement

theorem reads_programTurn_run (he : e.InOrder run) (hgrouped : e.Grouped) (fuel : Nat)
    (hctx : ctx.Plain false) :
    (programTurn ⟨parseGoal fuel, fuel⟩).Reads ctx f run.words [] fun g r =>
      ∃ i, r = .item i ∧ MakesStatement (.expression e) g i := by
  have hstatement : (parseGoal fuel .statement).Reads ctx f run.words []
      (MakesStatement (.expression e)) := by
    cases fuel with
    | zero => exact Reads.tooDeep
    | succ fuel =>
        exact Reads.deeper (@reads_statementProduction_run ⟨parseGoal fuel, fuel⟩ _ _ _ _
          (readsExpressions_parseGoal fuel) (readsWholeRun_parseGoal he hgrouped fuel) hctx.deeper)
  rw [programTurn]
  refine Reads.isAt ?_
  rw [run.firstKind_words, beq_eq_false_iff_ne.mpr (by simp), if_neg Bool.false_ne_true]
  exact hstatement.finish fun i g _ hi => .pure ⟨i, rfl, hi⟩

end Descent

/-- Every run is read as a tree in which the operands and operators stand in the order of the text
and no operation is an operand of an operator that binds more strongly, unless it is nested too
deeply. -/
theorem Program.parse_operatorRun (run : OperatorRun) :
    ∃ e : ExpressionTree, e.InOrder run ∧ e.Grouped ∧
      Program.ParsesAs run.text (.expression e) := by
  rcases ExpressionTree.exists_grouped run with ⟨e, he, hgrouped⟩
  refine ⟨e, he, hgrouped, parsesAs_of_reads run.spells_text fun fuel => ?_⟩
  have hplain : Context.outermost.Plain false := ⟨rfl, rfl, rfl⟩
  refine (Reads.repeated_once (fun _ _ _ hgh hi => hi.enlarged hgh)
    (Descent.reads_programTurn_run he hgrouped fuel hplain) fun _ => Reads.isAt (.pure rfl)).mono
    fun g l _ hl => ?_
  obtain ⟨i, rfl, hi⟩ := hl
  exact .cons hi .nil

/-- Of `a ** b ** a / b in a` the second `**` is in the right operand of the first, and `in` comes
last. -/
example :
    let power : BinaryOperator := ⟨.mark .power, _, rfl⟩
    let run : OperatorRun := ⟨letterA, [(power, letterB), (power, letterA),
      (⟨.mark .divide, _, rfl⟩, letterB), (⟨.word .«in», _, rfl⟩, letterA)]⟩
    run.text = "a ** b ** a / b in a" ∧ (Program.parse run.text).isOk = true := by
  decide +kernel

end Untangle
