import Untangle.Printing.Program
import Untangle.Proofs.Printing.Writing

/-!
# Words of expressions and statements

The words that an expression is printed with depend on its place only through the parentheses.
A statement in front of an `else` is printed in braces if the `else` would belong to an `if` at
its end. Apart from these braces the words of a statement are those of its parts.
-/

namespace Untangle

/-!
## Words
-/

namespace ExpressionTree

def precedence : ExpressionTree → Precedence
  | .name _ => .primary
  | .unary _ _ => .unary
  | .update _ _ _ => .update
  | .binary _ operator _ => operator.precedence
  | .assignment _ _ _ => .assignment
  | .conditional _ _ _ => .conditional
  | .sequence _ _ _ => .comma

/-- The operator of the expression is `in`. -/
def isIn : ExpressionTree → Bool
  | .binary _ operator _ => operator.kind == .word .«in»
  | _ => false

/-- One of the operators is `??` and the other is another logical one. -/
def mixesCoalesce (operator : TokenKind) : ExpressionTree → Bool
  | .binary _ inner _ =>
      inner.kind.isLogical && (operator.isLogical &&
        (operator == .mark .coalesce) != (inner.kind == .mark .coalesce))
  | _ => false

def needsParentheses (e : ExpressionTree) (place : Place) : Bool :=
  place.isWrapped || e.precedence < place.minimum || (place.noIn && e.isIn)

/-- The place of an operand of a binary operator. -/
def operandPlace (place : Place) (operator : TokenKind) (e : ExpressionTree) : Place :=
  place.wrappedIf (e.mixesCoalesce operator)

end ExpressionTree

/-- The words, in parentheses if they are needed. -/
def inParentheses (needed : Bool) (words : Place → List Word) (place : Place) : List Word :=
  if needed then .mark .openParen :: (words place.unwrapped ++ [.mark .closeParen])
  else words place

mutual

/-- The words of an expression without parentheses around it. -/
def ExpressionTree.plainWords : ExpressionTree → Place → List Word
  | .name name, _ => [.name name]
  | .unary operator operand, place =>
      .of operator.kind :: inParentheses (operand.needsParentheses (place.inner .unary))
        operand.plainWords (place.inner .unary)
  | .update .before operator target, _ => [.of operator.kind, .name target]
  | .update .after operator target, _ => [.name target, .attached operator.kind]
  | .binary left operator right, place =>
      let minima := Printer.operandMinima operator.kind operator.precedence
      let before := left.operandPlace (place.leading minima.1) operator.kind
      let behind := right.operandPlace (place.inner minima.2) operator.kind
      inParentheses (left.needsParentheses before) left.plainWords before ++
        .of operator.kind ::
          inParentheses (right.needsParentheses behind) right.plainWords behind
  | .assignment target operator value, place =>
      .name target :: .of operator.kind ::
        inParentheses (value.needsParentheses (place.inner .assignment)) value.plainWords
          (place.inner .assignment)
  | .conditional condition whenTrue whenFalse, place =>
      inParentheses (condition.needsParentheses (place.leading .coalesce)) condition.plainWords
          (place.leading .coalesce) ++
        .mark .question ::
          (inParentheses (whenTrue.needsParentheses (.enclosed .assignment)) whenTrue.plainWords
              (.enclosed .assignment) ++
            .mark .colon ::
              inParentheses (whenFalse.needsParentheses (place.inner .assignment))
                whenFalse.plainWords (place.inner .assignment))
  | .sequence first second rest, place =>
      inParentheses (first.needsParentheses (place.leading .assignment)) first.plainWords
          (place.leading .assignment) ++
        .mark .comma ::
          (inParentheses (second.needsParentheses (place.inner .assignment)) second.plainWords
              (place.inner .assignment) ++
            wordsAfterCommas rest (place.inner .assignment))

def wordsAfterCommas : List ExpressionTree → Place → List Word
  | [], _ => []
  | e :: rest, place =>
      .mark .comma ::
        (inParentheses (e.needsParentheses place) e.plainWords place ++
          wordsAfterCommas rest place)

end

namespace ExpressionTree

/-- The words of an expression at a place. -/
def words (e : ExpressionTree) (place : Place) : List Word :=
  inParentheses (e.needsParentheses place) e.plainWords place

variable {place : Place} {e : ExpressionTree} {w : Word} {ws : List Word}

theorem words_of_needsParentheses (h : e.needsParentheses place = true) :
    e.words place = .mark .openParen :: (e.plainWords place.unwrapped ++ [.mark .closeParen]) := by
  rw [words, h]
  rfl

theorem words_of_not_needsParentheses (h : e.needsParentheses place = false) :
    e.words place = e.plainWords place := by
  rw [words, h]
  rfl

theorem words_name (name : OrdinaryName) (hplace : place.isWrapped = false) :
    (ExpressionTree.name name).words place = [.name name] := by
  refine words_of_not_needsParentheses ?_
  have hhigh : ¬ Precedence.primary < place.minimum := by
    cases place.minimum <;> decide
  rw [needsParentheses, hplace]
  simp [precedence, isIn, hhigh]

theorem wordsAfterCommas_eq (rest : List ExpressionTree) (place : Place) :
    wordsAfterCommas rest place = rest.flatMap fun e => .mark .comma :: e.words place := by
  induction rest with
  | nil => rfl
  | cons e rest ih =>
      rw [wordsAfterCommas, ih]
      rfl

/-!
## First words
-/

/-- The words that an expression may start with. -/
inductive Opening : Word → Prop
  | name (name : OrdinaryName) : Opening (.name name)
  | openParen : Opening (.mark .openParen)
  | unary (operator : UnaryOperator) : Opening (.of operator.kind)
  | update (operator : UpdateOperator) : Opening (.of operator.kind)

theorem exists_words_of_plainWords
    (he : ∀ place, ∃ w ws, e.plainWords place = w :: ws ∧ Opening w) (place : Place) :
    ∃ w ws, e.words place = w :: ws ∧ Opening w := by
  cases hneeded : e.needsParentheses place with
  | true => exact ⟨_, _, words_of_needsParentheses hneeded, .openParen⟩
  | false =>
      rw [words_of_not_needsParentheses hneeded]
      exact he place

theorem exists_plainWords (e : ExpressionTree) (place : Place) :
    ∃ w ws, e.plainWords place = w :: ws ∧ Opening w := by
  have hfirst : ∀ {e : ExpressionTree},
      (∀ place, ∃ w ws, e.plainWords place = w :: ws ∧ Opening w) →
      ∀ place more, ∃ w ws, e.words place ++ more = w :: ws ∧ Opening w := by
    intro e he place more
    rcases exists_words_of_plainWords he place with ⟨w, ws, hws, hw⟩
    exact ⟨w, ws ++ more, by rw [hws]; rfl, hw⟩
  induction e generalizing place with
  | name name => exact ⟨_, _, rfl, .name name⟩
  | unary operator operand => exact ⟨_, _, rfl, .unary operator⟩
  | update form operator target =>
      cases form with
      | before => exact ⟨_, _, rfl, .update operator⟩
      | after => exact ⟨_, _, rfl, .name target⟩
  | binary left operator right ih => exact hfirst ih _ _
  | assignment target operator value => exact ⟨_, _, rfl, .name target⟩
  | conditional condition whenTrue whenFalse ih => exact hfirst ih _ _
  | sequence first second rest ih => exact hfirst ih _ _

theorem exists_words (e : ExpressionTree) (place : Place) :
    ∃ w ws, e.words place = w :: ws ∧ Opening w :=
  exists_words_of_plainWords e.exists_plainWords place

theorem words_ne_nil (e : ExpressionTree) (place : Place) : e.words place ≠ [] := by
  rcases e.exists_words place with ⟨w, ws, hws, _⟩
  rw [hws]
  exact List.cons_ne_nil _ _

end ExpressionTree

/-!
## Operators
-/

theorem UnaryOperator.proper (operator : UnaryOperator) : (Word.of operator.kind).Proper := by
  obtain ⟨kind, hkind⟩ := operator
  cases kind with
  | mark p =>
      refine .mark ?_
      cases p <;> first | rfl | cases hkind
  | word k => exact .keyword k
  | _ => cases hkind

theorem UnaryOperator.isUpdate_eq_false (operator : UnaryOperator) :
    operator.kind.isUpdate = false := by
  obtain ⟨kind, hkind⟩ := operator
  cases kind with
  | mark p => cases p <;> first | rfl | cases hkind
  | _ => rfl

theorem BinaryOperator.proper (operator : BinaryOperator) : (Word.of operator.kind).Proper := by
  obtain ⟨kind, precedence, hbinds⟩ := operator
  cases kind with
  | mark p =>
      refine .mark ?_
      cases p <;> first | rfl | cases hbinds
  | word k => exact .keyword k
  | _ => cases hbinds

theorem AssignmentOperator.proper (operator : AssignmentOperator) :
    (Word.of operator.kind).Proper := by
  obtain ⟨kind, hkind⟩ := operator
  cases kind with
  | mark p =>
      refine .mark ?_
      cases p <;> first | rfl | cases hkind
  | _ => cases hkind

theorem UpdateOperator.mark (operator : UpdateOperator) :
    operator.kind = .mark .increment ∨ operator.kind = .mark .decrement := by
  obtain ⟨kind, hkind⟩ := operator
  cases kind with
  | mark p => cases p <;> first | exact .inl rfl | exact .inr rfl | cases hkind
  | _ => cases hkind

/-- Binary operators bind more strongly than a conditional and less strongly than unary ones. -/
theorem BinaryOperator.level_precedence (operator : BinaryOperator) :
    Precedence.coalesce.level ≤ operator.precedence.level ∧
      operator.precedence.level ≤ Precedence.exponentiation.level := by
  obtain ⟨kind, precedence, hbinds⟩ := operator
  unfold TokenKind.binaryPrecedence? at hbinds
  split at hbinds <;> cases hbinds <;> decide

/-!
## Operators in front of operands
-/

theorem goesOn_of_isIdentifierStart (p : Punctuator) {ch : Char}
    (h : Text.isIdentifierStart ch = true) : p.goesOn ch = false := by
  have hne : ∀ other : Char, Text.isIdentifierStart other = false → (ch == other) = false := by
    intro other hother
    rw [beq_eq_false_iff_ne]
    rintro rfl
    cases h.symm.trans hother
  have hmarks : ∀ q ∈ Punctuator.longestFirst,
      q.text.toList.all (fun other => !Text.isIdentifierStart other) = true := by
    decide +kernel
  rw [Punctuator.goesOn, hne '/' (by decide +kernel), hne '*' (by decide +kernel)]
  refine Bool.or_eq_false_iff.mpr ⟨by simp, List.any_eq_false.mpr fun q hq hprefix => ?_⟩
  rcases List.isPrefixOf_iff_prefix.mp hprefix with ⟨more, hmore⟩
  have hch := List.all_eq_true.mp (hmarks q hq) ch (by rw [← hmore]; simp)
  simp [h] at hch

/-- Two signs that would be read as one. -/
def joinsSign (operator inner : TokenKind) : Bool :=
  operator == .mark .plus && (inner == .mark .plus || inner == .mark .increment) ||
    operator == .mark .minus && (inner == .mark .minus || inner == .mark .decrement)

/-- The operator that the expression starts with. -/
def ExpressionTree.front? : ExpressionTree → Option TokenKind
  | .unary operator _ => some operator.kind
  | .update .before operator _ => some operator.kind
  | _ => none

/-- The punctuators that a unary operator or an operand may start with. -/
def signMarks : List Punctuator :=
  [.openParen, .not, .complement, .plus, .minus, .increment, .decrement]

theorem goesOn_of_not_joinsSign {p q : Punctuator}
    (hp : (TokenKind.mark p).isUnaryOperator = true) (hq : q ∈ signMarks)
    (h : joinsSign (.mark p) (.mark q) = false) :
    ∀ ch ∈ q.text.toList.head?, p.goesOn ch = false := by
  have hall : ∀ p ∈ signMarks, (TokenKind.mark p).isUnaryOperator = true → ∀ q ∈ signMarks,
      joinsSign (.mark p) (.mark q) = false →
        q.text.toList.head?.all (fun ch => !p.goesOn ch) = true := by
    decide +kernel
  have hmem : p ∈ signMarks := by
    cases p <;> first | decide | cases hp
  simpa [Option.all_eq_true] using hall p hmem hp q hq h

namespace ExpressionTree

variable {place : Place} {e : ExpressionTree} {w : Word}

/-- An operand of a unary operator starts with a name, a parenthesis or its own operator. -/
theorem first_of_unary (hplace : place.minimum = .unary) (hw : w ∈ (e.words place).head?) :
    w = .mark .openParen ∨ (∃ name, w = .name name) ∨ ∃ k, e.front? = some k ∧ w = .of k := by
  cases hneeded : e.needsParentheses place with
  | true =>
      rw [words_of_needsParentheses hneeded] at hw
      exact .inl (Option.some.inj hw).symm
  | false =>
      rw [words_of_not_needsParentheses hneeded] at hw
      have htight : ¬ e.precedence.level < Precedence.unary.level := by
        intro hlevel
        have : decide (e.precedence < place.minimum) = true := by
          rw [hplace]
          exact decide_eq_true hlevel
        simp [needsParentheses, this] at hneeded
      cases e with
      | name name => exact .inr (.inl ⟨name, (Option.some.inj hw).symm⟩)
      | unary operator operand => exact .inr (.inr ⟨_, rfl, (Option.some.inj hw).symm⟩)
      | update form operator target =>
          cases form with
          | before => exact .inr (.inr ⟨_, rfl, (Option.some.inj hw).symm⟩)
          | after => exact .inr (.inl ⟨target, (Option.some.inj hw).symm⟩)
      | binary left operator right =>
          exact absurd (Nat.lt_of_le_of_lt operator.level_precedence.2 (by decide)) htight
      | assignment target operator value =>
          exact absurd (by decide : Precedence.assignment.level < Precedence.unary.level) htight
      | conditional condition whenTrue whenFalse =>
          exact absurd (by decide : Precedence.conditional.level < Precedence.unary.level) htight
      | sequence first second rest =>
          exact absurd (by decide : Precedence.comma.level < Precedence.unary.level) htight

end ExpressionTree

theorem head?_append_of_mem {chars more : List Char} {ch : Char} (h : ch ∈ (chars ++ more).head?)
    (hne : chars ≠ []) : ch ∈ chars.head? := by
  rwa [List.head?_append_of_ne_nil _ hne] at h

/-- An operator ends where its operand starts, unless both are signs that join. -/
theorem UnaryOperator.endsBefore_operand (operator : UnaryOperator) {place : Place}
    {operand : ExpressionTree} (hplace : place.minimum = .unary)
    (hword : operator.kind.isKeyword = false)
    (hsign : ∀ k, operand.front? = some k → joinsSign operator.kind k = false) :
    ∀ w ∈ (operand.words place).head?, ∀ more,
      (Word.of operator.kind).EndsBefore (w.text.toList ++ more) := by
  obtain ⟨kind, hkind⟩ := operator
  intro w hw more ch hch
  cases kind with
  | mark p =>
      have hmark : ∀ q ∈ signMarks, joinsSign (.mark p) (.mark q) = false →
          ch ∈ (q.text.toList ++ more).head? → p.goesOn ch = false := by
        intro q hq hjoins hch
        have hne : q.text.toList ≠ [] := by
          have hall : ∀ q ∈ signMarks, q.text.toList ≠ [] := by decide +kernel
          exact hall q hq
        exact goesOn_of_not_joinsSign hkind hq hjoins ch (head?_append_of_mem hch hne)
      have hletter : ∀ text : String, Text.isIdentifierName text = true →
          ch ∈ (text.toList ++ more).head? → p.goesOn ch = false := by
        intro text hname hch
        rcases exists_cons_of_isIdentifierName hname with ⟨first, chars, htext, hfirst⟩
        rw [htext] at hch
        obtain rfl := Option.some.inj hch
        exact goesOn_of_isIdentifierStart p hfirst
      rcases ExpressionTree.first_of_unary hplace hw with rfl | ⟨name, rfl⟩ | ⟨k, hk, rfl⟩
      · exact hmark .openParen (by decide) (by cases p <;> rfl) hch
      · exact hletter name.text name.isName hch
      · have hjoins := hsign k hk
        cases operand with
        | unary inner operand =>
            obtain rfl := Option.some.inj hk
            obtain ⟨k, hinner⟩ := inner
            cases k with
            | mark q => exact hmark q (by cases q <;> first | decide | cases hinner) hjoins hch
            | word k => exact hletter k.text (isIdentifierName_keyword k) hch
            | _ => cases hinner
        | update form inner target =>
            cases form with
            | before =>
                obtain rfl := Option.some.inj hk
                rcases inner.mark with hinner | hinner
                · rw [hinner] at hch hjoins
                  exact hmark .increment (by decide) hjoins hch
                · rw [hinner] at hch hjoins
                  exact hmark .decrement (by decide) hjoins hch
            | after => cases hk
        | _ => cases hk
  | word k => cases hword
  | _ => cases hkind

/-!
## Open conditionals
-/

namespace StatementTree

/-- An `else` behind the statement would belong to an `if` at its end. -/
def endsWithOpenIf : StatementTree → Bool
  | .ifThen _ _ => true
  | .ifElse _ _ whenFalse => whenFalse.endsWithOpenIf
  | .guarded .whileLoop _ body => body.endsWithOpenIf
  | .guarded .withObject _ body => body.endsWithOpenIf
  | .forLoop _ body => body.endsWithOpenIf
  | .labeled _ body => body.endsWithOpenIf
  | _ => false

/-- The statement in braces of its own if the condition holds. -/
def inBracesIf (condition : Bool) (t : StatementTree) : StatementTree :=
  if condition then .block [t] else t

end StatementTree

mutual

/-- The statement with braces around every statement in front of an `else` that ends with an open
conditional, and no others. -/
def StatementTree.braced : StatementTree → StatementTree
  | .expression e => .expression e
  | .empty => .empty
  | .block statements => .block (bracedAll statements)
  | .ifThen condition whenTrue => .ifThen condition whenTrue.braced
  | .ifElse condition whenTrue whenFalse =>
      .ifElse condition (whenTrue.braced.inBracesIf whenTrue.endsWithOpenIf) whenFalse.braced
  | .guarded form condition body => .guarded form condition body.braced
  | .forLoop initializer body => .forLoop initializer body.braced
  | .labeled label body => .labeled label body.braced

def bracedAll : List StatementTree → List StatementTree
  | [] => []
  | t :: rest => t.braced :: bracedAll rest

end

theorem bracedAll_eq (statements : List StatementTree) :
    bracedAll statements = statements.map StatementTree.braced := by
  induction statements with
  | nil => rfl
  | cons t rest ih => rw [bracedAll, ih, List.map_cons]

/-!
## Words
-/

/-- A keyword with words in parentheses behind it. -/
def headWords (k : Keyword) (inside : List Word) : List Word :=
  .keyword k :: .mark .openParen :: (inside ++ [.mark .closeParen])

/-- The place of an expression that makes up a statement. -/
def statementPlace : Place :=
  { Place.enclosed .comma with opensStatement := true }

/-- The place of an expression in the head of a loop, where `in` has another meaning. -/
def loopPlace : Place :=
  { Place.enclosed .comma with noIn := true }

mutual

def StatementTree.words : StatementTree → List Word
  | .expression e => e.words statementPlace ++ [.mark .semicolon]
  | .empty => [.mark .semicolon]
  | .block statements => .mark .openBrace :: (wordsOfAll statements ++ [.mark .closeBrace])
  | .ifThen condition whenTrue =>
      headWords .«if» (condition.words (.enclosed .comma)) ++ whenTrue.words
  | .ifElse condition whenTrue whenFalse =>
      headWords .«if» (condition.words (.enclosed .comma)) ++
        (whenTrue.words ++ .keyword .«else» :: whenFalse.words)
  | .guarded .whileLoop condition body =>
      headWords .«while» (condition.words (.enclosed .comma)) ++ body.words
  | .guarded .withObject condition body =>
      headWords .«with» (condition.words (.enclosed .comma)) ++ body.words
  | .guarded .doLoop condition body =>
      .keyword .«do» :: (body.words ++
        (headWords .«while» (condition.words (.enclosed .comma)) ++ [.mark .semicolon]))
  | .forLoop initializer body =>
      headWords .«for» (initializer.elim [] (·.words loopPlace) ++
        [.mark .semicolon, .mark .semicolon]) ++ body.words
  | .labeled label body => .name label :: .mark .colon :: body.words

def wordsOfAll : List StatementTree → List Word
  | [] => []
  | t :: rest => t.words ++ wordsOfAll rest

end

theorem wordsOfAll_eq (statements : List StatementTree) :
    wordsOfAll statements = statements.flatMap StatementTree.words := by
  induction statements with
  | nil => rfl
  | cons t rest ih => rw [wordsOfAll, ih, List.flatMap_cons]

theorem StatementTree.exists_words (t : StatementTree) :
    ∃ w ws, t.words = w :: ws ∧ w.isAttached = false := by
  cases t with
  | expression e =>
      rcases e.exists_words statementPlace with ⟨w, ws, hws, hw⟩
      refine ⟨w, ws ++ [.mark .semicolon], by rw [words, hws]; rfl, ?_⟩
      cases hw <;> rfl
  | guarded form condition body => cases form <;> exact ⟨_, _, rfl, rfl⟩
  | _ => exact ⟨_, _, rfl, rfl⟩

theorem StatementTree.words_ne_nil (t : StatementTree) : t.words ≠ [] := by
  rcases t.exists_words with ⟨w, ws, hws, _⟩
  rw [hws]
  exact List.cons_ne_nil _ _

end Untangle
