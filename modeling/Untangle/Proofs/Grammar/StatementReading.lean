import Untangle.Proofs.Grammar.OperatorReading
import Untangle.Proofs.Printing.PrintedWords

/-!
# Reading statements

In front of the words of a statement the productions read the statement. An `else` that follows
must not be in reach of an `if` at the end of the statement.
-/

namespace Untangle

open Parse

/-!
## First words
-/

/-- A label starts here. -/
def StartsLabel (ws : List Word) : Prop :=
  ∃ w ws', ws = w :: ws' ∧ w.kind = .identifier ∧ firstKind ws' = .mark .colon

theorem not_startsLabel_cons {w : Word} {ws : List Word}
    (h : w.kind ≠ .identifier ∨ firstKind ws ≠ .mark .colon) : ¬ StartsLabel (w :: ws) := by
  rintro ⟨_, _, ⟨⟩, hkind, hcolon⟩
  rcases h with h | h
  · exact h hkind
  · exact h hcolon

theorem AssignmentOperator.kind_ne_colon (operator : AssignmentOperator) :
    operator.kind ≠ .mark .colon := by
  intro hcolon
  have hassignment := operator.isAssignment
  rw [hcolon] at hassignment
  cases hassignment

theorem BinaryOperator.kind_ne_colon (operator : BinaryOperator) :
    operator.kind ≠ .mark .colon := by
  intro hcolon
  have hbinds := operator.binds
  rw [hcolon] at hbinds
  cases hbinds

namespace ExpressionTree

variable {e : ExpressionTree} {place : Place} {more : List Word}

theorem not_startsLabel_of_plainWords
    (he : ∀ place more, firstKind more ≠ .mark .colon → ¬ StartsLabel (e.plainWords place ++ more))
    (place : Place) (more : List Word) (hmore : firstKind more ≠ .mark .colon) :
    ¬ StartsLabel (e.words place ++ more) := by
  cases hneeded : e.needsParentheses place with
  | true =>
      rw [words_of_needsParentheses hneeded]
      exact not_startsLabel_cons (.inl (by simp [Word.mark, Word.of]))
  | false =>
      rw [words_of_not_needsParentheses hneeded]
      exact he place more hmore

theorem not_startsLabel_plainWords (e : ExpressionTree) (place : Place) (more : List Word)
    (hmore : firstKind more ≠ .mark .colon) : ¬ StartsLabel (e.plainWords place ++ more) := by
  induction e generalizing place more with
  | name name => exact not_startsLabel_cons (.inr hmore)
  | unary operator operand =>
      refine not_startsLabel_cons (.inl fun hkind => ?_)
      have hunary := operator.isUnary
      rw [show operator.kind = .identifier from hkind] at hunary
      cases hunary
  | update form operator target =>
      have hkind : operator.kind ≠ .identifier ∧ operator.kind ≠ .mark .colon := by
        rcases operator.mark with hmark | hmark <;> simp [hmark]
      cases form with
      | before => exact not_startsLabel_cons (.inl hkind.1)
      | after => exact not_startsLabel_cons (.inr hkind.2)
  | binary left operator right ih =>
      rw [plainWords_binary, List.append_assoc]
      exact not_startsLabel_of_plainWords ih _ _ operator.kind_ne_colon
  | assignment target operator value =>
      rw [plainWords_assignment]
      exact not_startsLabel_cons (.inr operator.kind_ne_colon)
  | conditional condition whenTrue whenFalse ih =>
      rw [plainWords_conditional, List.append_assoc]
      exact not_startsLabel_of_plainWords ih _ _ (by simp [firstKind, Word.mark, Word.of])
  | sequence first second rest ih =>
      rw [plainWords_sequence, List.append_assoc]
      exact not_startsLabel_of_plainWords ih _ _ (by simp [firstKind, Word.mark, Word.of])

/-- No expression is read as a label. -/
theorem not_startsLabel (e : ExpressionTree) (place : Place) (more : List Word)
    (hmore : firstKind more ≠ .mark .colon) : ¬ StartsLabel (e.words place ++ more) :=
  not_startsLabel_of_plainWords e.not_startsLabel_plainWords place more hmore

end ExpressionTree

namespace StatementTree

theorem exists_firstKind (t : StatementTree) (more : List Word) :
    ∃ w : Word, firstKind (t.words ++ more) = w.kind ∧
      w.kind ∉ [TokenKind.mark .closeBrace, .endOfFile, .word .«else»] := by
  cases t with
  | expression e =>
      rcases e.exists_words statementPlace with ⟨w, ws, hws, hw⟩
      refine ⟨w, by rw [words, hws]; rfl, ?_⟩
      simp only [List.mem_cons, List.not_mem_nil, or_false, not_or]
      exact ⟨hw.kind_ne (by simp) (by simp) rfl rfl, hw.kind_ne (by simp) (by simp) rfl rfl,
        hw.kind_ne (by simp) (by simp) rfl rfl⟩
  | guarded form condition body =>
      cases form with
      | whileLoop => exact ⟨.keyword .«while», rfl, by decide⟩
      | doLoop => exact ⟨.keyword .«do», rfl, by decide⟩
      | withObject => exact ⟨.keyword .«with», rfl, by decide⟩
  | empty => exact ⟨.mark .semicolon, rfl, by decide⟩
  | block statements => exact ⟨.mark .openBrace, rfl, by decide⟩
  | ifThen condition whenTrue => exact ⟨.keyword .«if», rfl, by decide⟩
  | ifElse condition whenTrue whenFalse => exact ⟨.keyword .«if», rfl, by decide⟩
  | forLoop initializer body => exact ⟨.keyword .«for», rfl, by decide⟩
  | labeled label body => exact ⟨.name label, rfl, by simp [Word.name]⟩

theorem firstKind_ne {t : StatementTree} {more : List Word} {k : TokenKind}
    (hk : k ∈ [TokenKind.mark .closeBrace, .endOfFile, .word .«else»]) :
    firstKind (t.words ++ more) ≠ k := by
  rcases t.exists_firstKind more with ⟨w, hw, hnot⟩
  rw [hw]
  rintro rfl
  exact hnot hk

theorem braced_inBracesIf (t : StatementTree) (condition : Bool) :
    t.braced.inBracesIf condition = (t.inBracesIf condition).braced := by
  cases condition <;> rfl

theorem endsWithOpenIf_inBracesIf (t : StatementTree) :
    (t.inBracesIf t.endsWithOpenIf).endsWithOpenIf = false := by
  cases hopen : t.endsWithOpenIf with
  | true => rfl
  | false => exact hopen

end StatementTree

/-!
## Goals
-/

/-- The node holds the statement. -/
def MakesStatement (t : StatementTree) (g : Forest) (i : NodeId) : Prop :=
  g.HoldsStatement (some i) t

/-- Statements are read as what they stand for, in braces where an `else` would be mistaken. -/
structure ReadsStatements (parse : Goal → Parse NodeId) : Prop
    extends ReadsExpressions parse where
  statement : ∀ {ctx f} {t : StatementTree} {after}, ctx.Plain false →
    (t.endsWithOpenIf = true → firstKind after ≠ .word .«else») →
      (parse .statement).Reads ctx f t.braced.words after (MakesStatement t.braced)

namespace Descent

variable {d : Descent} {ctx : Context} {f : Forest} {e : ExpressionTree} {t : StatementTree}
  {after : List Word}

/-!
## Expressions and blocks
-/

theorem reads_semicolon {β : Type} {ws : List Word} {made : Forest → β → Prop} {k : Unit → Parse β}
    (hk : (k ()).Reads ctx f ws after made) :
    (semicolon >>= k).Reads ctx f (.mark .semicolon :: ws) after made := by
  rw [semicolon, bind_assoc]
  exact Reads.eatMark hk

theorem reads_expressionStatement (hd : ReadsExpressions d.parse) (hctx : ctx.Plain false) :
    d.expressionStatement.Reads ctx f (e.words statementPlace ++ [.mark .semicolon]) after
      (MakesStatement (.expression e)) := by
  rw [expressionStatement]
  refine Reads.offset fun start => ?_
  have he := @reads_expression d ctx f e statementPlace ([.mark .semicolon] ++ after) hd hctx rfl
  refine he.bind fun i g _ hi => Reads.endOf fun stop => reads_semicolon ?_
  exact Reads.add (by simp) fun h j hgh hj => .expression hj (hi.enlarged hgh)

theorem reads_emptyStatement :
    emptyStatement.Reads ctx f [.mark .semicolon] after (MakesStatement .empty) := by
  rw [emptyStatement, single]
  refine Reads.token fun c _ => Reads.advance ?_
  exact Reads.add (by simp) fun h j _ hj => .empty hj

theorem reads_statement (hd : ReadsStatements d.parse) (hctx : ctx.Plain false)
    (hafter : t.endsWithOpenIf = true → firstKind after ≠ .word .«else») :
    d.statement.Reads ctx f t.braced.words after (MakesStatement t.braced) :=
  hd.statement hctx hafter

theorem reads_blockTurn (hd : ReadsStatements d.parse) (hctx : ctx.Plain false)
    (hafter : firstKind after ≠ .word .«else») :
    d.blockTurn.Reads ctx f t.braced.words after fun g r =>
      ∃ i, r = .item i ∧ MakesStatement t.braced g i := by
  rw [blockTurn]
  refine Reads.kind ?_
  split
  · rename_i hk
    exact absurd hk (StatementTree.firstKind_ne (by simp))
  · rename_i hk
    exact absurd hk (StatementTree.firstKind_ne (by simp))
  · exact (hd.statement hctx fun _ => hafter).finish fun i g _ hi => .pure ⟨i, rfl, hi⟩

theorem reads_block (hd : ReadsStatements d.parse) (hctx : ctx.Plain false)
    (statements : List StatementTree) :
    d.block.Reads ctx f
      (.mark .openBrace :: (statements.flatMap (·.braced.words) ++ [.mark .closeBrace])) after
      (MakesStatement (.block (statements.map StatementTree.braced))) := by
  rw [block]
  refine Reads.offset fun start => Reads.expectMark fun _ => ?_
  have hitems : (repeated d.fuel d.blockTurn).Reads ctx f (statements.flatMap (·.braced.words))
      ([.mark .closeBrace] ++ after) fun g l =>
        List.Forall₂ (fun t i => MakesStatement (StatementTree.braced t) g i) statements l := by
    refine Reads.repeated (P := fun more => firstKind more ≠ .word .«else») ?_ ?_ ?_ ?_ ?_
    · exact fun g h t i hgh hi => hi.enlarged hgh
    · exact (by simp [firstKind, Word.mark, Word.of])
    · exact fun t _ more => StatementTree.firstKind_ne (by simp)
    · exact fun g => Reads.kind (.pure rfl)
    · exact fun g t _ more hmore => reads_blockTurn hd hctx hmore
  refine hitems.bind fun l g _ hl => Reads.expectMark fun stop => ?_
  refine Reads.add (by simp) fun h j hgh hj => .block hj ?_
  rw [List.forall₂_map_left_iff, List.forall₂_map_right_iff]
  exact List.Forall₂.flip (hl.imp fun t i hi => hi.enlarged hgh)

/-!
## Control flow
-/

theorem headWords_append (k : Keyword) (inside more : List Word) :
    headWords k inside ++ more =
      .keyword k :: (.mark .openParen :: (inside ++ [.mark .closeParen]) ++ more) :=
  rfl

theorem reads_parenthesized (hd : ReadsExpressions d.parse) (hctx : ctx.Plain false) :
    d.parenthesized.Reads ctx f
      (.mark .openParen :: (e.words (.enclosed .comma) ++ [.mark .closeParen])) after
      (MakesExpression e) := by
  rw [parenthesized]
  refine Reads.expectMark fun _ => ?_
  have he := @reads_expression d ctx f e (.enclosed .comma) ([.mark .closeParen] ++ after) hd hctx
    rfl
  exact he.bind fun i g _ hi => Reads.expectMark fun _ => .pure hi

theorem reads_ifThen {whenTrue : StatementTree} (hd : ReadsStatements d.parse)
    (hctx : ctx.Plain false) (hafter : firstKind after ≠ .word .«else») :
    d.conditionalStatement.Reads ctx f
      (headWords .«if» (e.words (.enclosed .comma)) ++ whenTrue.braced.words) after
      (MakesStatement (.ifThen e whenTrue.braced)) := by
  rw [conditionalStatement, headWords_append]
  refine Reads.offset fun start => Reads.expectWord fun _ => ?_
  refine (reads_parenthesized hd.toReadsExpressions hctx).bind fun i g _ hi => ?_
  refine (reads_statement hd hctx fun _ => hafter).finish fun j h hgh hj => ?_
  refine Reads.eat_other hafter (Reads.addEnding (by simp) fun h' k hh' hk => ?_)
  exact .ifThen hk ((hi.enlarged hgh).enlarged hh') (hj.enlarged hh')

theorem reads_ifElse {whenTrue whenFalse : StatementTree} (hd : ReadsStatements d.parse)
    (hctx : ctx.Plain false) (htrue : whenTrue.endsWithOpenIf = false)
    (hafter : whenFalse.endsWithOpenIf = true → firstKind after ≠ .word .«else») :
    d.conditionalStatement.Reads ctx f
      (headWords .«if» (e.words (.enclosed .comma)) ++
        (whenTrue.braced.words ++ .keyword .«else» :: whenFalse.braced.words)) after
      (MakesStatement (.ifElse e whenTrue.braced whenFalse.braced)) := by
  rw [conditionalStatement, headWords_append]
  refine Reads.offset fun start => Reads.expectWord fun _ => ?_
  refine (reads_parenthesized hd.toReadsExpressions hctx).bind fun i g _ hi => ?_
  refine (reads_statement hd hctx fun hopen => ?_).bind fun j h hgh hj => ?_
  · cases htrue.symm.trans hopen
  refine Reads.eatWord ?_
  rw [if_pos rfl]
  refine (reads_statement hd hctx hafter).finish fun k h' hh' hk => ?_
  refine Reads.addEnding (by simp) fun g' l hg' hl => ?_
  exact .ifElse hl (((hi.enlarged hgh).enlarged hh').enlarged hg') ((hj.enlarged hh').enlarged hg')
    (hk.enlarged hg')

theorem reads_guarded {form : GuardForm} {word : Keyword} (hd : ReadsStatements d.parse)
    (hctx : ctx.Plain false)
    (hafter : t.endsWithOpenIf = true → firstKind after ≠ .word .«else») :
    (d.guarded form word).Reads ctx f
      (headWords word (e.words (.enclosed .comma)) ++ t.braced.words) after
      (MakesStatement (.guarded form e t.braced)) := by
  rw [guarded, headWords_append]
  refine Reads.offset fun start => Reads.expectWord fun _ => ?_
  refine (reads_parenthesized hd.toReadsExpressions hctx).bind fun i g _ hi => ?_
  refine (reads_statement hd hctx hafter).finish fun j h hgh hj => ?_
  refine Reads.addEnding (by simp) fun h' k hh' hk => ?_
  exact .guarded hk ((hi.enlarged hgh).enlarged hh') (hj.enlarged hh')

theorem reads_doLoop (hd : ReadsStatements d.parse) (hctx : ctx.Plain false) :
    d.doLoop.Reads ctx f
      (.keyword .«do» :: (t.braced.words ++
        (headWords .«while» (e.words (.enclosed .comma)) ++ [.mark .semicolon]))) after
      (MakesStatement (.guarded .doLoop e t.braced)) := by
  have hhead : headWords .«while» (e.words (.enclosed .comma)) ++ [.mark .semicolon] =
      .keyword .«while» :: .mark .openParen ::
        (e.words (.enclosed .comma) ++ [.mark .closeParen, .mark .semicolon]) := by
    simp [headWords]
  rw [doLoop, hhead]
  refine Reads.offset fun start => Reads.expectWord fun _ => ?_
  refine (reads_statement hd hctx fun _ => ?_).bind fun i g _ hi => ?_
  · simp [firstKind, Word.keyword, Word.of]
  refine Reads.expectWord fun _ => Reads.expectMark fun _ => ?_
  have he := @reads_expression d ctx g e (.enclosed .comma)
    ([.mark .closeParen, .mark .semicolon] ++ after) hd.toReadsExpressions hctx rfl
  refine he.bind fun j h hgh hj => Reads.expectMark fun _ => Reads.eatMark ?_
  exact Reads.add (by simp) fun h' k hh' hk =>
    .guarded hk (hj.enlarged hh') ((hi.enlarged hgh).enlarged hh')

theorem reads_labeledStatement {label : OrdinaryName} (hd : ReadsStatements d.parse)
    (hctx : ctx.Plain false)
    (hafter : t.endsWithOpenIf = true → firstKind after ≠ .word .«else») :
    d.labeledStatement.Reads ctx f (.name label :: .mark .colon :: t.braced.words) after
      (MakesStatement (.labeled label t.braced)) := by
  rw [labeledStatement]
  refine Reads.offset fun start => ?_
  have hlabel := @reads_identifier ctx f (.mark .colon :: t.braced.words ++ after) label
    hctx.inAsync
  refine hlabel.bind fun i g _ hi => Reads.expectMark fun _ => ?_
  refine (reads_statement hd hctx hafter).finish fun j h hgh hj => ?_
  refine Reads.addEnding (by simp) fun h' k hh' hk => ?_
  exact .labeled hk ((hi.enlarged hgh).enlarged hh') (hj.enlarged hh')

/-!
## Loops with three clauses
-/

theorem reads_loopInitializer_none :
    d.loopInitializer.Reads ctx f [] (.mark .semicolon :: after) fun _ s => s = none := by
  rw [loopInitializer]
  exact Reads.kind (.pure rfl)

theorem reads_loopInitializer (hd : ReadsExpressions d.parse) (hctx : ctx.Plain true) :
    d.loopInitializer.Reads ctx f (e.words loopPlace) (.mark .semicolon :: after) fun g s =>
      g.Holds s e := by
  have he := @reads_expression d ctx f e loopPlace (.mark .semicolon :: after) hd hctx rfl
  rw [loopInitializer]
  refine Reads.kind ?_
  rcases firstKind_words_append e loopPlace (.mark .semicolon :: after) with ⟨w, hw, hfirst⟩
  rw [hfirst]
  split
  · rename_i hk
    exact absurd hk (hw.kind_ne (by simp) (by simp) rfl rfl)
  · rename_i hk
    exact absurd hk (hw.kind_ne (by simp) (by simp) rfl rfl)
  · rename_i hk
    exact absurd hk (hw.kind_ne (by simp) (by simp) rfl rfl)
  · rename_i hk
    exact absurd hk (hw.kind_ne (by simp) (by simp) rfl rfl)
  · exact he.finish fun i g _ hi => .pure hi

theorem reads_checkDeclarations {i : NodeId} (hi : f.Holds (some i) e) :
    (checkDeclarations i).Reads ctx f [] after fun _ _ => True := by
  rw [checkDeclarations]
  refine Reads.node? ?_
  cases hi with
  | name hs => rw [hs]; exact .pure trivial
  | unary hs hc => rw [hs]; exact .pure trivial
  | update hs hc => rw [hs]; exact .pure trivial
  | binary hs ha hb => rw [hs]; exact .pure trivial
  | assignment hs ha hb => rw [hs]; exact .pure trivial
  | conditional hs ha hb hc => rw [hs]; exact .pure trivial
  | sequence hs ha hb hslots => rw [hs]; exact .pure trivial

theorem reads_optionalExpression_none {p : Punctuator} :
    (d.optionalExpression p).Reads ctx f [] (.mark p :: after) fun _ s => s = none := by
  rw [optionalExpression]
  refine Reads.isAtMark ?_
  rw [List.nil_append, show firstKind (.mark p :: after) = .mark p from rfl, beq_self_eq_true,
    if_pos rfl]
  exact .pure rfl

/-- The two clauses that are left out, and the body. -/
theorem reads_loopClauses {initializer : Slot} {tree : Option ExpressionTree} {start : Nat}
    (hd : ReadsStatements d.parse) (hctx : ctx.Plain false)
    (hafter : t.endsWithOpenIf = true → firstKind after ≠ .word .«else»)
    (hinitializer : f.HoldsOptional initializer tree) :
    (do
      let _ ← expectMark .semicolon
      let condition ← d.optionalExpression .semicolon
      let _ ← expectMark .semicolon
      let increment ← d.optionalExpression .closeParen
      let _ ← expectMark .closeParen
      let body ← d.statement
      add (.forLoop initializer condition increment (some body)) start (← endOf body) :
        Parse NodeId).Reads ctx f
      (.mark .semicolon :: .mark .semicolon :: .mark .closeParen :: t.braced.words) after
      (MakesStatement (.forLoop tree t.braced)) := by
  refine Reads.expectMark fun _ => ?_
  refine Reads.silent reads_optionalExpression_none fun s g hfg hs => Reads.expectMark fun _ => ?_
  refine Reads.silent reads_optionalExpression_none fun s' g' hgg' hs' => ?_
  refine Reads.expectMark fun _ => ?_
  subst hs hs'
  refine (reads_statement hd hctx hafter).finish fun i h hgh hi => ?_
  refine Reads.addEnding (by simp) fun h' j hh' hj => ?_
  exact .ofLoop hj ((((hinitializer.enlarged hfg).enlarged hgg').enlarged hgh).enlarged hh')
    (hi.enlarged hh')

theorem reads_forLoop {initializer : Slot} {tree : Option ExpressionTree} {start : Nat}
    (hd : ReadsStatements d.parse) (hctx : ctx.Plain false)
    (hafter : t.endsWithOpenIf = true → firstKind after ≠ .word .«else»)
    (hinitializer : f.HoldsOptional initializer tree) :
    (d.forLoop start initializer).Reads ctx f
      (.mark .semicolon :: .mark .semicolon :: .mark .closeParen :: t.braced.words) after
      (MakesStatement (.forLoop tree t.braced)) := by
  cases initializer with
  | none =>
      rw [forLoop]
      exact reads_loopClauses hd hctx hafter hinitializer
  | some i =>
      rw [forLoop]
      cases tree with
      | none => cases hinitializer
      | some e =>
          refine (reads_checkDeclarations hinitializer).silent fun _ g hfg _ => ?_
          exact reads_loopClauses hd hctx hafter (hinitializer.enlarged hfg)

theorem reads_forStatement {tree : Option ExpressionTree} (hd : ReadsStatements d.parse)
    (hctx : ctx.Plain false)
    (hafter : t.endsWithOpenIf = true → firstKind after ≠ .word .«else») :
    d.forStatement.Reads ctx f (StatementTree.forLoop tree t.braced).words after
      (MakesStatement (.forLoop tree t.braced)) := by
  have hwords : (StatementTree.forLoop tree t.braced).words =
      .keyword .«for» :: .mark .openParen :: (tree.elim [] (·.words loopPlace) ++
        .mark .semicolon :: .mark .semicolon :: .mark .closeParen :: t.braced.words) := by
    simp [StatementTree.words, headWords]
  have hinitializer : d.loopInitializer.withoutIn.Reads ctx f (tree.elim [] (·.words loopPlace))
      (.mark .semicolon :: .mark .semicolon :: .mark .closeParen :: t.braced.words ++ after)
      fun g s => g.HoldsOptional s tree := by
    refine Reads.withoutIn ?_
    cases tree with
    | none => exact reads_loopInitializer_none
    | some e => exact reads_loopInitializer hd.toReadsExpressions hctx.withoutIn
  rw [forStatement, hwords]
  refine Reads.offset fun start => Reads.expectWord fun _ => Reads.isAtAwait hctx.inAsync ?_
  rw [if_neg Bool.false_ne_true]
  refine Reads.expectMark fun _ => hinitializer.bind fun s g _ hs => ?_
  refine Reads.isAtWord (by simp) ?_
  rw [if_neg Bool.false_ne_true, if_neg Bool.false_ne_true]
  refine Reads.isAt ?_
  exact reads_forLoop hd hctx hafter hs

/-!
## Statements
-/

theorem reads_otherStatement (hd : ReadsExpressions d.parse) (hctx : ctx.Plain false) :
    d.otherStatement.Reads ctx f (e.words statementPlace ++ [.mark .semicolon]) after
      (MakesStatement (.expression e)) := by
  have hlabel := e.not_startsLabel statementPlace ([.mark .semicolon] ++ after)
    (by simp [firstKind, Word.mark, Word.of])
  rcases e.exists_words statementPlace with ⟨w, ws, hws, hw⟩
  have hstatement := @reads_expressionStatement d ctx f e after hd hctx
  rw [hws, List.cons_append] at hlabel hstatement
  rw [hws, List.cons_append, otherStatement]
  refine Reads.isAtIdentifier hw.not_declares (Reads.scanner fun c hc => ?_)
  have hcolon : (firstKind (w :: (ws ++ [.mark .semicolon]) ++ after) == .identifier &&
      c.nextKind == .mark .colon) = false := by
    rw [Bool.eq_false_iff]
    intro hboth
    rw [Bool.and_eq_true, beq_iff_eq, beq_iff_eq] at hboth
    refine hlabel ⟨w, ws ++ ([.mark .semicolon] ++ after), rfl, hboth.1, ?_⟩
    rw [← List.append_assoc, ← hboth.2]
    exact (Scanner.Faces.scan hc).kind.symm
  rw [hcolon, if_neg Bool.false_ne_true]
  exact hstatement

theorem reads_otherStatement_label {label : OrdinaryName} (hd : ReadsStatements d.parse)
    (hctx : ctx.Plain false)
    (hafter : t.endsWithOpenIf = true → firstKind after ≠ .word .«else») :
    d.otherStatement.Reads ctx f (.name label :: .mark .colon :: t.braced.words) after
      (MakesStatement (.labeled label t.braced)) := by
  rw [otherStatement]
  refine Reads.isAtIdentifier (by simp [firstKind, Word.name]) (Reads.scanner fun c hc => ?_)
  have hcolon : c.nextKind = .mark .colon := (Scanner.Faces.scan hc).kind
  rw [hcolon, if_pos (by rfl)]
  exact reads_labeledStatement hd hctx hafter

/-- A statement that starts as an expression does. -/
theorem reads_statementProduction_expression (hd : ReadsExpressions d.parse)
    (hctx : ctx.Plain false) :
    d.statementProduction.Reads ctx f (e.words statementPlace ++ [.mark .semicolon]) after
      (MakesStatement (.expression e)) := by
  have hother := @reads_otherStatement d ctx f e after hd hctx
  rcases firstKind_words_append e statementPlace ([.mark .semicolon] ++ after) with
    ⟨w, hw, hfirst⟩
  rw [statementProduction]
  refine Reads.scanner fun c hc => ?_
  rw [hc.kind, List.append_assoc, hfirst]
  have hasync := hc.isContextual (by simp : "async" ∈ ["async", "await", "of"])
  have hkind := hw.kind
  generalize w.kind = k at hkind
  cases k with
  | identifier =>
      dsimp only
      rw [hasync, Bool.false_and, if_neg Bool.false_ne_true]
      exact hother
  | mark p =>
      cases p <;>
        first
        | exact hother
        | simp [TokenKind.isUnaryOperator, TokenKind.isUpdate] at hkind
  | word word =>
      cases word <;>
        first
        | exact hother
        | simp [TokenKind.isUnaryOperator, TokenKind.isUpdate] at hkind
  | _ => simp [TokenKind.isUnaryOperator, TokenKind.isUpdate] at hkind

theorem reads_statementProduction (hd : ReadsStatements d.parse) (hctx : ctx.Plain false)
    (hafter : t.endsWithOpenIf = true → firstKind after ≠ .word .«else») :
    d.statementProduction.Reads ctx f t.braced.words after (MakesStatement t.braced) := by
  cases t with
  | expression e => exact reads_statementProduction_expression hd.toReadsExpressions hctx
  | empty =>
      rw [statementProduction]
      refine Reads.scanner fun c hc => ?_
      rw [hc.kind]
      exact reads_emptyStatement
  | block statements =>
      have hblock := @reads_block d ctx f after hd hctx statements
      rw [StatementTree.braced, bracedAll_eq, StatementTree.words, wordsOfAll_eq,
        List.flatMap_map, statementProduction]
      refine Reads.scanner fun c hc => ?_
      rw [hc.kind]
      exact hblock
  | ifThen condition whenTrue =>
      rw [StatementTree.braced, StatementTree.words, statementProduction]
      refine Reads.scanner fun c hc => ?_
      rw [hc.kind]
      exact reads_ifThen hd hctx (hafter rfl)
  | ifElse condition whenTrue whenFalse =>
      rw [StatementTree.braced, StatementTree.braced_inBracesIf, StatementTree.words,
        statementProduction]
      refine Reads.scanner fun c hc => ?_
      rw [hc.kind]
      exact reads_ifElse hd hctx whenTrue.endsWithOpenIf_inBracesIf hafter
  | guarded form condition body =>
      cases form with
      | whileLoop =>
          rw [StatementTree.braced, StatementTree.words, statementProduction]
          refine Reads.scanner fun c hc => ?_
          rw [hc.kind]
          exact reads_guarded hd hctx hafter
      | doLoop =>
          rw [StatementTree.braced, StatementTree.words, statementProduction]
          refine Reads.scanner fun c hc => ?_
          rw [hc.kind]
          exact reads_doLoop hd hctx
      | withObject =>
          rw [StatementTree.braced, StatementTree.words, statementProduction]
          refine Reads.scanner fun c hc => ?_
          rw [hc.kind]
          exact reads_guarded hd hctx hafter
  | forLoop initializer body =>
      have hloop := @reads_forStatement d ctx f body after initializer hd hctx hafter
      rw [StatementTree.braced, statementProduction]
      refine Reads.scanner fun c hc => ?_
      rw [hc.kind]
      exact hloop
  | labeled label body =>
      rw [StatementTree.braced, StatementTree.words, statementProduction]
      refine Reads.scanner fun c hc => ?_
      have hasync := hc.isContextual (by simp : "async" ∈ ["async", "await", "of"])
      have hkind : c.token.kind = .identifier := hc.kind
      rw [hkind]
      dsimp only
      rw [hasync, Bool.false_and, if_neg Bool.false_ne_true]
      exact reads_otherStatement_label hd hctx hafter

end Descent

/-- Every goal reads the statements and expressions that it may stand for. -/
theorem readsStatements_parseGoal (fuel : Nat) : ReadsStatements (parseGoal fuel) := by
  induction fuel with
  | zero => exact ⟨readsExpressions_parseGoal 0, fun _ _ => Reads.tooDeep⟩
  | succ fuel ih =>
      refine ⟨readsExpressions_parseGoal (fuel + 1), fun hctx hafter => ?_⟩
      exact Reads.deeper (Descent.reads_statementProduction ih hctx.deeper hafter)

end Untangle
