import Untangle.Grammar.Program
import Untangle.Proofs.Printing.PrintedWords

/-!
# Where expressions end

The grammar climbs the levels of precedence, and the printer puts parentheses where a level is
missing. Both are compared here: how strongly a printed expression is bound, and which tokens may
follow it so that a run of operators ends or goes on with the whole expression as left operand.
-/

namespace Untangle

/-!
## Levels
-/

namespace ExpressionTree

variable {e : ExpressionTree} {place : Place}

/-- How strongly the expression is bound at a place, where it may stand in parentheses. -/
def levelAt (e : ExpressionTree) (place : Place) : Precedence :=
  if e.needsParentheses place then .primary else e.precedence

theorem levelAt_of_needsParentheses (h : e.needsParentheses place = true) :
    e.levelAt place = .primary := by
  rw [levelAt, if_pos h]

theorem levelAt_of_not_needsParentheses (h : e.needsParentheses place = false) :
    e.levelAt place = e.precedence := by
  rw [levelAt, h, if_neg Bool.false_ne_true]

theorem level_le_primary (p : Precedence) : p.level ≤ Precedence.primary.level := by
  cases p <;> decide

theorem minimum_le_levelAt (e : ExpressionTree) (place : Place) :
    place.minimum.level ≤ (e.levelAt place).level := by
  cases hneeded : e.needsParentheses place with
  | true =>
      rw [levelAt_of_needsParentheses hneeded]
      exact level_le_primary _
  | false =>
      rw [levelAt_of_not_needsParentheses hneeded]
      simp only [needsParentheses, Bool.or_eq_false_iff, decide_eq_false_iff_not] at hneeded
      exact Nat.le_of_not_lt hneeded.1.2

theorem le_levelAt {p : Precedence} (h : p.level ≤ place.minimum.level) :
    p.level ≤ (e.levelAt place).level :=
  Nat.le_trans h (e.minimum_le_levelAt place)

/-- Parentheses enclose an expression at the loosest place. -/
theorem plainWords_unwrapped (e : ExpressionTree) (place : Place) :
    e.plainWords place.unwrapped = e.words { place.unwrapped with minimum := .comma } := by
  rw [words_of_not_needsParentheses]
  · cases e with
    | update form operator target => cases form <;> rfl
    | _ => rfl
  · have hlow : ¬ e.precedence < Precedence.comma := Nat.not_lt_zero _
    simp [needsParentheses, Place.unwrapped, hlow]

theorem plainWords_sequence (first second : ExpressionTree) (rest : List ExpressionTree)
    (place : Place) :
    (sequence first second rest).plainWords place =
      first.words (place.leading .assignment) ++
        (second :: rest).flatMap fun e => .mark .comma :: e.words (place.inner .assignment) := by
  rw [plainWords, wordsAfterCommas_eq]
  rfl

theorem plainWords_binary (left : ExpressionTree) (operator : BinaryOperator)
    (right : ExpressionTree) (place : Place) :
    (binary left operator right).plainWords place =
      left.words (left.operandPlace
          (place.leading (Printer.operandMinima operator.kind operator.precedence).1)
          operator.kind) ++
        .of operator.kind ::
          right.words (right.operandPlace
            (place.inner (Printer.operandMinima operator.kind operator.precedence).2)
            operator.kind) := by
  rw [plainWords]
  rfl

theorem plainWords_conditional (condition whenTrue whenFalse : ExpressionTree) (place : Place) :
    (conditional condition whenTrue whenFalse).plainWords place =
      condition.words (place.leading .coalesce) ++
        .mark .question :: (whenTrue.words (.enclosed .assignment) ++
          .mark .colon :: whenFalse.words (place.inner .assignment)) := by
  rw [plainWords]
  rfl

theorem plainWords_assignment (target : OrdinaryName) (operator : AssignmentOperator)
    (value : ExpressionTree) (place : Place) :
    (assignment target operator value).plainWords place =
      [.name target] ++ .of operator.kind :: value.words (place.inner .assignment) := by
  rw [plainWords]
  rfl

theorem Opening.kind {w : Word} (h : Opening w) :
    w.kind = .identifier ∨ w.kind = .mark .openParen ∨ w.kind.isUnaryOperator = true ∨
      w.kind.isUpdate = true := by
  cases h with
  | name name => exact .inl rfl
  | openParen => exact .inr (.inl rfl)
  | unary operator => exact .inr (.inr (.inl operator.isUnary))
  | update operator => exact .inr (.inr (.inr operator.isUpdate))

/-- No expression starts with such a token. -/
theorem Opening.kind_ne {w : Word} {k : TokenKind} (h : Opening w) (hidentifier : k ≠ .identifier)
    (hparen : k ≠ .mark .openParen) (hunary : k.isUnaryOperator = false)
    (hupdate : k.isUpdate = false) : w.kind ≠ k := by
  rintro rfl
  rcases h.kind with hk | hk | hk | hk
  · exact hidentifier hk
  · exact hparen hk
  · exact Bool.false_ne_true (hunary.symm.trans hk)
  · exact Bool.false_ne_true (hupdate.symm.trans hk)

theorem Opening.not_declares {w : Word} (h : Opening w) :
    w.kind ∉ [.word .«let», .word .«yield»] := by
  intro hmem
  simp only [List.mem_cons, List.not_mem_nil, or_false] at hmem
  rcases hmem with hk | hk
  · exact h.kind_ne (by simp) (by simp) rfl rfl hk
  · exact h.kind_ne (by simp) (by simp) rfl rfl hk

/-- What an expression starts with when it is no operation with two or more operands. -/
theorem cases_of_unary_le (h : Precedence.unary.level ≤ (e.levelAt place).level) :
    e.needsParentheses place = true ∨ (∃ name, e = .name name) ∨
      (∃ operator operand, e = .unary operator operand) ∨
        ∃ form operator target, e = .update form operator target := by
  cases hneeded : e.needsParentheses place with
  | true => exact .inl rfl
  | false =>
      rw [levelAt_of_not_needsParentheses hneeded] at h
      cases e with
      | name name => exact .inr (.inl ⟨name, rfl⟩)
      | unary operator operand => exact .inr (.inr (.inl ⟨_, _, rfl⟩))
      | update form operator target => exact .inr (.inr (.inr ⟨_, _, _, rfl⟩))
      | binary left operator right =>
          exact absurd (Nat.le_trans h operator.level_precedence.2) (by decide)
      | assignment target operator value =>
          exact absurd h (by decide : ¬ Precedence.unary.level ≤ Precedence.assignment.level)
      | conditional condition whenTrue whenFalse =>
          exact absurd h (by decide : ¬ Precedence.unary.level ≤ Precedence.conditional.level)
      | sequence first second rest =>
          exact absurd h (by decide : ¬ Precedence.unary.level ≤ Precedence.comma.level)

/-- Only sequences are bound less strongly than assignments. -/
theorem sequence_of_level_lt (h : (e.levelAt place).level < Precedence.assignment.level) :
    ∃ first second rest, e = .sequence first second rest ∧ e.needsParentheses place = false := by
  cases hneeded : e.needsParentheses place with
  | true =>
      rw [levelAt_of_needsParentheses hneeded] at h
      exact absurd h (by decide)
  | false =>
      rw [levelAt_of_not_needsParentheses hneeded] at h
      cases e with
      | sequence first second rest => exact ⟨first, second, rest, rfl, rfl⟩
      | binary left operator right =>
          exact absurd (Nat.lt_of_le_of_lt operator.level_precedence.1 h) (by decide)
      | _ => exact absurd h (of_decide_eq_false rfl)

theorem binary_of_levelAt (h : Precedence.coalesce.level ≤ (e.levelAt place).level)
    (hunary : (e.levelAt place).level < Precedence.unary.level) :
    ∃ left operator right, e = .binary left operator right ∧ e.needsParentheses place = false := by
  cases hneeded : e.needsParentheses place with
  | true =>
      rw [levelAt_of_needsParentheses hneeded] at hunary
      exact absurd hunary (by decide)
  | false =>
      rw [levelAt_of_not_needsParentheses hneeded] at h hunary
      cases e with
      | binary left operator right => exact ⟨left, operator, right, rfl, rfl⟩
      | name name => exact absurd hunary (of_decide_eq_false rfl)
      | unary operator operand => exact absurd hunary (of_decide_eq_false rfl)
      | update form operator target => exact absurd hunary (of_decide_eq_false rfl)
      | _ => exact absurd h (of_decide_eq_false rfl)

theorem conditional_of_levelAt (h : Precedence.conditional.level ≤ (e.levelAt place).level)
    (hcoalesce : (e.levelAt place).level < Precedence.coalesce.level) :
    ∃ condition whenTrue whenFalse, e = .conditional condition whenTrue whenFalse ∧
      e.needsParentheses place = false := by
  cases hneeded : e.needsParentheses place with
  | true =>
      rw [levelAt_of_needsParentheses hneeded] at hcoalesce
      exact absurd hcoalesce (by decide)
  | false =>
      rw [levelAt_of_not_needsParentheses hneeded] at h hcoalesce
      cases e with
      | conditional condition whenTrue whenFalse => exact ⟨condition, whenTrue, whenFalse, rfl, rfl⟩
      | binary left operator right =>
          exact absurd hcoalesce (Nat.not_lt_of_le operator.level_precedence.1)
      | assignment target operator value => exact absurd h (of_decide_eq_false rfl)
      | sequence first second rest => exact absurd h (of_decide_eq_false rfl)
      | _ => exact absurd hcoalesce (of_decide_eq_false rfl)

theorem assignment_of_levelAt (h : Precedence.assignment.level ≤ (e.levelAt place).level)
    (hconditional : (e.levelAt place).level < Precedence.conditional.level) :
    ∃ target operator value, e = .assignment target operator value ∧
      e.needsParentheses place = false := by
  cases hneeded : e.needsParentheses place with
  | true =>
      rw [levelAt_of_needsParentheses hneeded] at hconditional
      exact absurd hconditional (by decide)
  | false =>
      rw [levelAt_of_not_needsParentheses hneeded] at h hconditional
      cases e with
      | assignment target operator value => exact ⟨target, operator, value, rfl, rfl⟩
      | binary left operator right =>
          exact absurd (Nat.lt_of_le_of_lt operator.level_precedence.1 hconditional) (by decide)
      | sequence first second rest => exact absurd h (of_decide_eq_false rfl)
      | _ => exact absurd hconditional (of_decide_eq_false rfl)

/-- A unary operator in front belongs to a unary expression. -/
theorem levelAt_of_isUnaryOperator {more : List Word}
    (h : Precedence.unary.level ≤ (e.levelAt place).level)
    (hfirst : (firstKind (e.words place ++ more)).isUnaryOperator = true) :
    e.levelAt place = .unary := by
  cases hneeded : e.needsParentheses place with
  | true =>
      rw [words_of_needsParentheses hneeded] at hfirst
      cases hfirst
  | false =>
      rw [words_of_not_needsParentheses hneeded] at hfirst
      rw [levelAt_of_not_needsParentheses hneeded]
      rcases cases_of_unary_le h with hneeded' | ⟨name, rfl⟩ | ⟨operator, operand, rfl⟩ |
        ⟨form, operator, target, rfl⟩
      · cases hneeded.symm.trans hneeded'
      · cases hfirst
      · rfl
      · cases form with
        | before =>
            have hmark : (firstKind [Word.of operator.kind]).isUnaryOperator = true := hfirst
            rcases operator.mark with hkind | hkind <;> rw [hkind] at hmark <;> cases hmark
        | after => cases hfirst

end ExpressionTree

/-!
## Tokens behind expressions
-/

namespace TokenKind

/-- An operand of an operator may end in front of the token. -/
def endsOperand : TokenKind → Bool
  | .mark .comma | .mark .closeParen | .mark .semicolon | .mark .colon | .mark .question => true
  | .endOfFile => true
  | k => k.isAssignment || k.binaryPrecedence?.isSome

/-- No member, argument or template belongs to what is in front of the token. -/
def endsAccess (k : TokenKind) : Bool :=
  k.endsOperand || k.isUpdate

/-- An expression that is no sequence may end in front of the token. -/
def endsAssignment : TokenKind → Bool
  | .mark .comma | .mark .closeParen | .mark .semicolon | .mark .colon => true
  | .endOfFile => true
  | _ => false

def endsConditional (k : TokenKind) : Bool :=
  k.endsAssignment || k.isAssignment

def endsExpression : TokenKind → Bool
  | .mark .closeParen | .mark .semicolon | .endOfFile => true
  | _ => false

variable {k : TokenKind} {noIn : Bool} {level : Precedence} {bound : Option Precedence}

/-- What stands in front of the token may be its left operand, if it is an operator at all. -/
structure Follows (k : TokenKind) (noIn : Bool) (level : Precedence) : Prop where
  ends : k.endsOperand = true
  binds : ∀ p, k.binaryPrecedence? = some p → (k == .word .«in» && noIn) = false →
    (Printer.operandMinima k p).1.level ≤ level.level

/-- A run of operators that bind more strongly than the bound ends in front of the token. -/
structure EndsRun (k : TokenKind) (noIn : Bool) (bound : Option Precedence) : Prop where
  ends : k.endsOperand = true
  binds : ∀ p, k.binaryPrecedence? = some p → (k == .word .«in» && noIn) = false →
    ∃ b ∈ bound, p.level ≤ b.level

theorem endsConditional_of_endsAssignment (h : k.endsAssignment = true) :
    k.endsConditional = true := by
  rw [endsConditional, h, Bool.true_or]

theorem endsAssignment_of_endsExpression (h : k.endsExpression = true) :
    k.endsAssignment = true := by
  cases k with
  | mark p => cases p <;> first | rfl | cases h
  | _ => first | rfl | cases h

theorem isAssignment_of_endsAssignment (h : k.endsAssignment = true) :
    k.isAssignment = false := by
  cases k with
  | mark p => cases p <;> first | rfl | cases h
  | _ => rfl

theorem binaryPrecedence?_of_endsConditional (h : k.endsConditional = true) :
    k.binaryPrecedence? = none := by
  cases k with
  | mark p => cases p <;> first | rfl | cases h
  | _ => first | rfl | cases h

theorem endsRun_of_endsConditional (h : k.endsConditional = true) : k.EndsRun noIn bound where
  ends := by
    cases k with
    | mark p => cases p <;> first | rfl | cases h
    | _ => first | rfl | cases h
  binds p hp := by
    rw [binaryPrecedence?_of_endsConditional h] at hp
    cases hp

theorem endsRun_question : (TokenKind.mark .question).EndsRun noIn bound :=
  ⟨rfl, fun _ hp => by cases hp⟩

/-- Only `**` binds more strongly than `*`. -/
theorem level_le_multiplicative {p : Precedence} (hp : k.binaryPrecedence? = some p)
    (hpower : k.isRightAssociative = false) :
    p.level ≤ Precedence.multiplicative.level := by
  cases k with
  | mark q => cases q <;> first | cases hp; done | (cases hp; first | decide | cases hpower)
  | word w => cases w <;> cases hp <;> decide
  | _ => cases hp

theorem operandMinima_of_power {p : Precedence} (h : k.isRightAssociative = true) :
    Printer.operandMinima k p = (.update, p) := by
  rw [Printer.operandMinima, if_pos h]

theorem operandMinima_of_not_power {p : Precedence} (h : k.isRightAssociative = false) :
    Printer.operandMinima k p = (p, p.tighter) := by
  rw [Printer.operandMinima, if_neg (by rw [h]; exact Bool.false_ne_true)]

/-- In front of the end of a run there may be any operand that the run can start with. -/
theorem EndsRun.follows (h : k.EndsRun noIn bound)
    (hbound : ∀ b ∈ bound, b.level < level.level ∧ b.level ≤ Precedence.multiplicative.level) :
    k.Follows noIn level where
  ends := h.ends
  binds p hp hin := by
    rcases h.binds p hp hin with ⟨b, hb, hle⟩
    cases hpower : k.isRightAssociative with
    | false =>
        rw [operandMinima_of_not_power hpower]
        exact Nat.le_trans hle (Nat.le_of_lt (hbound b hb).1)
    | true =>
        obtain rfl : k = .mark .power := by simpa [isRightAssociative] using hpower
        cases hp
        exact absurd (Nat.le_trans hle (hbound b hb).2) (by decide)

end TokenKind

namespace BinaryOperator

variable {operator : BinaryOperator} {k : TokenKind} {noIn : Bool}

theorem precedence_of_power (h : operator.kind.isRightAssociative = true) :
    operator.precedence = .exponentiation := by
  have hpower : operator.kind = .mark .power := by simpa [TokenKind.isRightAssociative] using h
  have hbinds := operator.binds
  rw [hpower] at hbinds
  exact (Option.some.inj hbinds).symm

/-- A printed left operand is bound strongly enough. -/
theorem follows {level : Precedence}
    (h : (Printer.operandMinima operator.kind operator.precedence).1.level ≤ level.level) :
    operator.kind.Follows noIn level where
  ends := by
    have hends : (operator.kind.isAssignment || operator.kind.binaryPrecedence?.isSome) = true := by
      rw [operator.binds, Option.isSome_some, Bool.or_true]
    unfold TokenKind.endsOperand
    split <;> first | rfl | exact hends
  binds p hp _ := by
    obtain rfl := Option.some.inj (operator.binds.symm.trans hp)
    exact h

/-- The right operand ends where the operation may be the left operand of the next operator. -/
theorem endsRun (h : k.Follows noIn operator.precedence) :
    k.EndsRun noIn (some (Descent.rightBound operator.kind operator.precedence)) where
  ends := h.ends
  binds p hp hin := by
    refine ⟨_, rfl, ?_⟩
    have hle := h.binds p hp hin
    cases hpower : k.isRightAssociative with
    | true =>
        rw [TokenKind.operandMinima_of_power hpower] at hle
        exact absurd (Nat.le_trans hle operator.level_precedence.2)
          (by decide : ¬ Precedence.update.level ≤ Precedence.exponentiation.level)
    | false =>
        rw [TokenKind.operandMinima_of_not_power hpower] at hle
        unfold Descent.rightBound
        split
        · exact TokenKind.level_le_multiplicative hp hpower
        · exact hle

theorem level_le_leftMinimum :
    operator.precedence.level ≤
      (Printer.operandMinima operator.kind operator.precedence).1.level := by
  cases hpower : operator.kind.isRightAssociative with
  | true =>
      rw [TokenKind.operandMinima_of_power hpower]
      exact Nat.le_trans operator.level_precedence.2
        (by decide : Precedence.exponentiation.level ≤ Precedence.update.level)
  | false =>
      exact Nat.le_of_eq (by rw [TokenKind.operandMinima_of_not_power hpower])

/-- The left operand of `**` is no unary expression. -/
theorem unary_lt_leftMinimum (h : operator.kind.isRightAssociative = true) :
    ¬ (Printer.operandMinima operator.kind operator.precedence).1.level ≤
      Precedence.unary.level := by
  rw [TokenKind.operandMinima_of_power h]
  exact (by decide : ¬ Precedence.update.level ≤ Precedence.unary.level)

theorem rightBound_le_multiplicative :
    (Descent.rightBound operator.kind operator.precedence).level ≤
      Precedence.multiplicative.level := by
  unfold Descent.rightBound
  split
  · exact Nat.le_refl _
  · rename_i hpower
    exact TokenKind.level_le_multiplicative operator.binds (Bool.eq_false_iff.mpr hpower)

theorem rightBound_lt_rightMinimum :
    (Descent.rightBound operator.kind operator.precedence).level <
      (Printer.operandMinima operator.kind operator.precedence).2.level := by
  cases hpower : operator.kind.isRightAssociative with
  | true =>
      rw [TokenKind.operandMinima_of_power hpower, precedence_of_power hpower, Descent.rightBound,
        if_pos hpower]
      decide
  | false =>
      have hle := TokenKind.level_le_multiplicative operator.binds hpower
      rw [TokenKind.operandMinima_of_not_power hpower, Descent.rightBound,
        if_neg (by rw [hpower]; exact Bool.false_ne_true)]
      generalize operator.precedence = p at hle
      revert hle
      cases p <;> decide

/-- The bounds of operands are at least as strong as the loosest binary operator. -/
theorem coalesce_le_rightBound :
    Precedence.coalesce.level ≤
      (Descent.rightBound operator.kind operator.precedence).level := by
  unfold Descent.rightBound
  split
  · decide
  · exact operator.level_precedence.1

end BinaryOperator
end Untangle
