import Untangle.Grammar.Lookahead
import Untangle.Proofs.Token.ClosingLine
import Untangle.Proofs.Token.Partition

/-!
# Twin scanners

An element of an array and the same element in parentheses are followed by different closing marks.
Two scanners that go through the element, one here and one there, are twins: they find the same
tokens up to the end of the element, and looking ahead tells them the same.
-/

namespace Untangle
namespace Scanner

/-!
## The two texts
-/

/-- The line below an element of an array. -/
def bareLine : List Char :=
  [']', ';']

/-- The line below an element in parentheses. -/
def wrappedLine : List Char :=
  [')', ']', ';']

theorem closingLine_bareLine : ClosingLine bareLine := by
  simp [ClosingLine, bareLine]

theorem closingLine_wrappedLine : ClosingLine wrappedLine := by
  simp [ClosingLine, wrappedLine]

variable {s t t₁ t₂ : Scanner} {below : List Char}

/-- At the mark below the element. -/
structure Behind (t : Scanner) (below : List Char) : Prop where
  token : ∃ offset, t.token = closingToken below offset true
  error : t.error = none

/-- At a token that is malformed. -/
structure Malformed (t : Scanner) : Prop where
  kind : t.token.kind = .unknown
  error : t.error.isSome = true

/-- At the same token of the element. -/
def Within (t₁ t₂ : Scanner) : Prop :=
  ∃ s : Scanner, s.Standing ∧ t₁ = s.inside 0 ('\n' :: bareLine) ∧
    t₂ = s.inside 1 ('\n' :: wrappedLine)

/-- At the same token of the element, or both behind it. -/
inductive Twins (t₁ t₂ : Scanner) : Prop
  | within (h : Within t₁ t₂)
  | behind (h₁ : t₁.Behind bareLine) (h₂ : t₂.Behind wrappedLine)

/-!
## Scanning
-/

/-- In front of the same part of the element the next tokens are the same, or the element ends, or
there is something malformed in it. -/
theorem twins_of_matches (h₁ : s.Matches t₁ 0 ('\n' :: bareLine))
    (h₂ : s.Matches t₂ 1 ('\n' :: wrappedLine)) :
    Twins t₁.scan t₂.scan ∨ t₁.scan.Malformed ∧ t₂.scan.Malformed := by
  by_cases hunknown : s.scan.token.kind = .unknown
  · obtain ⟨hkind₁, herror₁⟩ := h₁.scan_unknown closingLine_bareLine hunknown
    obtain ⟨hkind₂, herror₂⟩ := h₂.scan_unknown closingLine_wrappedLine hunknown
    exact .inr ⟨⟨hkind₁, herror₁⟩, hkind₂, herror₂⟩
  by_cases hend : s.scan.token.kind = .endOfFile
  · obtain ⟨offset₁, htoken₁, herror₁⟩ := h₁.scan_end closingLine_bareLine hend
    obtain ⟨offset₂, htoken₂, herror₂⟩ := h₂.scan_end closingLine_wrappedLine hend
    exact .inl (.behind ⟨⟨offset₁, htoken₁⟩, herror₁⟩ ⟨⟨offset₂, htoken₂⟩, herror₂⟩)
  · obtain ⟨hs, heq₁⟩ := h₁.scan_known closingLine_bareLine hunknown hend
    obtain ⟨-, heq₂⟩ := h₂.scan_known closingLine_wrappedLine hunknown hend
    exact .inl (.within ⟨s.scan, hs, heq₁, heq₂⟩)

theorem Within.scan (h : Within t₁ t₂) :
    Twins t₁.scan t₂.scan ∨ t₁.scan.Malformed ∧ t₂.scan.Malformed := by
  obtain ⟨s, hs, rfl, rfl⟩ := h
  exact twins_of_matches (hs.matches 0 _) (hs.matches 1 _)

/-- A slash opens the same regular expression, or one that is malformed. -/
theorem Within.rescanSlash (h : Within t₁ t₂) :
    Within t₁.rescanSlash t₂.rescanSlash ∨
      t₁.rescanSlash.Malformed ∧ t₂.rescanSlash.Malformed := by
  obtain ⟨s, hs, rfl, rfl⟩ := h
  by_cases hunknown : s.rescanSlash.token.kind = .unknown
  · have h₁ := @rescanSlash_unknown 0 bareLine s hs hunknown
    have h₂ := @rescanSlash_unknown 1 wrappedLine s hs hunknown
    exact .inr ⟨⟨h₁.1, h₁.2⟩, h₂.1, h₂.2⟩
  · obtain ⟨hstanding, h₁⟩ := @rescanSlash_inside 0 bareLine s hs hunknown
    obtain ⟨-, h₂⟩ := @rescanSlash_inside 1 wrappedLine s hs hunknown
    exact .inl ⟨s.rescanSlash, hstanding, h₁, h₂⟩

/-!
## Behind the element
-/

/-- The tokens of closing lines, and the ones that are malformed. -/
def closingKinds : List TokenKind :=
  [.mark .closeParen, .mark .closeBracket, .mark .semicolon, .endOfFile, .unknown]

theorem kind_closingToken_mem (offset : Nat) (lineBreak : Bool) :
    (closingToken below offset lineBreak).kind ∈ closingKinds := by
  have hmem := kind_closingToken below offset lineBreak
  simp only [List.mem_cons, List.not_mem_nil, or_false] at hmem
  rcases hmem with hkind | hkind | hkind | hkind <;> rw [hkind] <;> decide

/-- Behind a mark of a closing line stand the others. -/
theorem closingLine_next (hbelow : ClosingLine below) (offset : Nat) (lineBreak : Bool) :
    ClosingLine (closingToken below offset lineBreak).next.rest := by
  cases below with
  | nil => exact hbelow
  | cons ch below => exact fun ch' hch' => hbelow ch' (List.mem_cons_of_mem _ hch')

theorem closingKinds_scan (ht : ClosingLine t.token.next.rest) :
    t.scan.token.kind ∈ closingKinds ∧ ClosingLine t.scan.token.next.rest := by
  rw [(scan_closingLine ht).1]
  exact ⟨kind_closingToken_mem _ _, closingLine_next ht _ _⟩

theorem Behind.kind_mem (h : t.Behind below) : t.token.kind ∈ closingKinds := by
  obtain ⟨offset, htoken⟩ := h.token
  rw [htoken]
  exact kind_closingToken_mem offset true

theorem Behind.closingLine (h : t.Behind below) (hbelow : ClosingLine below) :
    ClosingLine t.token.next.rest := by
  obtain ⟨offset, htoken⟩ := h.token
  rw [htoken]
  exact closingLine_next hbelow offset true

theorem rescanSlash_of_closing (h : t.token.kind ∈ closingKinds) : t.rescanSlash = t := by
  refine rescanSlash_of_not_slash ?_
  rintro (hslash | hslash)
  · exact absurd (hslash ▸ h) (by decide)
  · exact absurd (hslash ▸ h) (by decide)

theorem Malformed.kind_mem (h : t.Malformed) : t.token.kind ∈ closingKinds := by
  rw [h.kind]
  decide

/-!
## Looking ahead
-/

theorem Within.toLexeme (h : Within t₁ t₂) : t₁.token.toLexeme = t₂.token.toLexeme := by
  obtain ⟨s, -, rfl, rfl⟩ := h
  rfl

theorem Within.kind (h : Within t₁ t₂) : t₁.token.kind = t₂.token.kind :=
  congrArg Lexeme.kind h.toLexeme

theorem Within.lineBreakBefore (h : Within t₁ t₂) :
    t₁.token.lineBreakBefore = t₂.token.lineBreakBefore := by
  obtain ⟨s, -, rfl, rfl⟩ := h
  rfl

theorem Twins.error (h : Twins t₁ t₂) : t₁.error = none ∧ t₂.error = none := by
  cases h with
  | within h =>
      obtain ⟨s, hs, rfl, rfl⟩ := h
      exact ⟨hs.error, hs.error⟩
  | behind h₁ h₂ => exact ⟨h₁.error, h₂.error⟩

/-- The next tokens are the same, or neither opens anything. -/
theorem Twins.next (h : Twins t₁ t₂) :
    Within t₁.scan t₂.scan ∨
      t₁.scan.token.kind ∈ closingKinds ∧ t₂.scan.token.kind ∈ closingKinds := by
  cases h with
  | within h =>
      rcases h.scan with (hwithin | ⟨h₁, h₂⟩) | ⟨h₁, h₂⟩
      · exact .inl hwithin
      · exact .inr ⟨h₁.kind_mem, h₂.kind_mem⟩
      · exact .inr ⟨h₁.kind_mem, h₂.kind_mem⟩
  | behind h₁ h₂ =>
      exact .inr ⟨(closingKinds_scan (h₁.closingLine closingLine_bareLine)).1,
        (closingKinds_scan (h₂.closingLine closingLine_wrappedLine)).1⟩

/-- A question about the next token that closing marks deny. -/
theorem Twins.answer (h : Twins t₁ t₂) {p : TokenKind → Bool → Bool}
    (hp : ∀ k ∈ closingKinds, ∀ lineBreak, p k lineBreak = false) :
    p t₁.scan.token.kind t₁.scan.token.lineBreakBefore =
      p t₂.scan.token.kind t₂.scan.token.lineBreakBefore := by
  rcases h.next with hwithin | ⟨h₁, h₂⟩
  · rw [hwithin.kind, hwithin.lineBreakBefore]
  · rw [hp _ h₁, hp _ h₂]

theorem Twins.arrowFollows (h : Twins t₁ t₂) : t₁.arrowFollows = t₂.arrowFollows :=
  h.answer (p := fun k lineBreak => k == .mark .arrow && !lineBreak) (by decide)

theorem Twins.asyncFunctionFollows (h : Twins t₁ t₂) :
    t₁.asyncFunctionFollows = t₂.asyncFunctionFollows :=
  h.answer (p := fun k lineBreak => k == .word .«function» && !lineBreak) (by decide)

theorem Twins.asyncModifies (h : Twins t₁ t₂) : t₁.asyncModifies = t₂.asyncModifies :=
  h.answer (p := fun k lineBreak => !lineBreak && (k == .mark .times || k.startsPropertyName))
    (by decide)

theorem Twins.accessorFollows (h : Twins t₁ t₂) : t₁.accessorFollows = t₂.accessorFollows :=
  h.answer (p := fun k _ => k.startsPropertyName) (by decide)

theorem Twins.staticModifies (h : Twins t₁ t₂) : t₁.staticModifies = t₂.staticModifies :=
  h.answer (p := fun k _ => k == .mark .openBrace || k == .mark .times || k.startsPropertyName)
    (by decide)

theorem Twins.letDeclares (h : Twins t₁ t₂) : t₁.letDeclares = t₂.letDeclares :=
  h.answer (p := fun k _ => k.startsBindingName || k == .mark .openBracket || k == .mark .openBrace)
    (by decide)

theorem Twins.nextKind_beq (h : Twins t₁ t₂) {k : TokenKind} (hk : k ∉ closingKinds) :
    (t₁.nextKind == k) = (t₂.nextKind == k) :=
  h.answer (p := fun k' _ => k' == k) fun _ hk' _ =>
    beq_false_of_ne fun heq => hk (heq ▸ hk')

/-- Behind the next token there are only closing marks, and no arrow. -/
theorem arrowAfterParens_closing (hnext : ClosingLine t.scan.token.next.rest) (fuel depth : Nat) :
    arrowAfterParens fuel depth t = false := by
  induction fuel generalizing t depth with
  | zero => rfl
  | succ fuel ih =>
      obtain ⟨hkind, hbehind⟩ := closingKinds_scan hnext
      have harrow : t.scan.nextKind ≠ .mark .arrow := by
        intro heq
        rw [show t.scan.scan.token.kind = .mark .arrow from heq] at hkind
        exact absurd hkind (by decide)
      rw [arrowAfterParens]
      split
      · exact ih hbehind _
      · split
        · exact beq_false_of_ne harrow
        · exact ih hbehind _
      · rfl
      · rfl
      · exact ih hbehind _

theorem length_scan_lt (hknown : s.scan.token.kind ≠ .unknown)
    (hmore : s.scan.token.kind ≠ .endOfFile) :
    s.scan.token.next.rest.length < s.token.next.rest.length := by
  obtain ⟨gap, word, hfollows⟩ := follows_scan hknown
  have hword := List.length_pos_iff.mpr (hfollows.nonempty hmore)
  rw [hfollows.before.rest, hfollows.spans.rest, List.length_append, List.length_append]
  omega

theorem Within.length_scan_lt (h : Within t₁.scan t₂.scan) :
    t₁.scan.token.next.rest.length < t₁.token.next.rest.length ∧
      t₂.scan.token.next.rest.length < t₂.token.next.rest.length := by
  obtain ⟨s, hs, h₁, h₂⟩ := h
  constructor
  · exact Scanner.length_scan_lt (by rw [h₁]; exact hs.known) (by rw [h₁]; exact hs.more)
  · exact Scanner.length_scan_lt (by rw [h₂]; exact hs.known) (by rw [h₂]; exact hs.more)

/-- Parentheses that are open in the element are closed alike, or closing marks close them. -/
theorem Within.arrowAfterParens (h : Within t₁ t₂) {fuel₁ fuel₂ : Nat} (depth : Nat)
    (h₁ : t₁.token.next.rest.length < fuel₁) (h₂ : t₂.token.next.rest.length < fuel₂) :
    Scanner.arrowAfterParens fuel₁ depth t₁ = Scanner.arrowAfterParens fuel₂ depth t₂ := by
  induction fuel₁ generalizing t₁ t₂ fuel₂ depth with
  | zero => exact absurd h₁ (Nat.not_lt_zero _)
  | succ fuel₁ ih =>
      cases fuel₂ with
      | zero => exact absurd h₂ (Nat.not_lt_zero _)
      | succ fuel₂ =>
          rcases h.scan with (hnext | ⟨hnext₁, hnext₂⟩) | ⟨hnext₁, hnext₂⟩
          · have hlt := hnext.length_scan_lt
            have harrow : (t₁.scan.nextKind == .mark .arrow) =
                (t₂.scan.nextKind == .mark .arrow) := Twins.nextKind_beq (.within hnext) (by decide)
            have hgo := fun depth => ih hnext depth
              (Nat.lt_of_lt_of_le hlt.1 (Nat.lt_succ_iff.mp h₁))
              (Nat.lt_of_lt_of_le hlt.2 (Nat.lt_succ_iff.mp h₂))
            rw [Scanner.arrowAfterParens, Scanner.arrowAfterParens, hnext.kind, harrow, hgo, hgo,
              hgo]
          · rw [arrowAfterParens_closing (hnext₁.closingLine closingLine_bareLine),
              arrowAfterParens_closing (hnext₂.closingLine closingLine_wrappedLine)]
          · rw [Scanner.arrowAfterParens, Scanner.arrowAfterParens, hnext₁.kind, hnext₂.kind]

theorem Twins.parametersFollow (h : Twins t₁ t₂) : t₁.parametersFollow = t₂.parametersFollow := by
  cases h with
  | within h => exact h.arrowAfterParens 1 (Nat.lt_succ_self _) (Nat.lt_succ_self _)
  | behind h₁ h₂ =>
      have hnext₁ := closingKinds_scan (h₁.closingLine closingLine_bareLine)
      have hnext₂ := closingKinds_scan (h₂.closingLine closingLine_wrappedLine)
      exact (arrowAfterParens_closing hnext₁.2 _ _).trans
        (arrowAfterParens_closing hnext₂.2 _ _).symm

theorem asyncArrowFollows_closing (h : t.scan.token.kind ∈ closingKinds) :
    t.asyncArrowFollows = false := by
  have hname : t.scan.token.kind.startsBindingName = false := by
    revert h
    generalize t.scan.token.kind = k
    revert k
    decide
  have hparen : (t.scan.token.kind == .mark .openParen) = false :=
    beq_false_of_ne fun heq => absurd (heq ▸ h) (by decide)
  rw [asyncArrowFollows, hname, hparen]
  split <;> rfl

theorem Twins.asyncArrowFollows (h : Twins t₁ t₂) :
    t₁.asyncArrowFollows = t₂.asyncArrowFollows := by
  rcases h.next with hnext | ⟨h₁, h₂⟩
  · have htwins : Twins t₁.scan t₂.scan := .within hnext
    rw [Scanner.asyncArrowFollows, Scanner.asyncArrowFollows, hnext.lineBreakBefore, hnext.kind,
      htwins.arrowFollows, htwins.parametersFollow]
  · rw [asyncArrowFollows_closing h₁, asyncArrowFollows_closing h₂]

end Scanner
end Untangle
