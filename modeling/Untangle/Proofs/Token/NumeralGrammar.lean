import Untangle.Proofs.Token.Reach

/-!
# The grammar of numeric literals

The grammar of ECMAScript 2022 lets single underscores stand between the digits of a run, except
behind a leading zero. Legacy octal integers and decimal integers with a leading zero take none.
A number that the scanner reads is a literal of that grammar iff its underscores stand so. Nothing
else can be wrong with it, but the underscores can: runs in a radix take any that come behind their
first digit, a fraction may start with one, and a leading zero does not keep one away.
-/

namespace Untangle

open Cursor Text

namespace Text

/-!
## The grammar
-/

/-- Digits with single underscores between them. -/
inductive DigitRun (p : Char → Bool) : List Char → Prop
  | single {d} (hd : p d) : DigitRun p [d]
  | digit {d ds} (hd : p d) (hds : DigitRun p ds) : DigitRun p (d :: ds)
  | separated {d ds} (hd : p d) (hds : DigitRun p ds) : DigitRun p (d :: '_' :: ds)

/-- Zero, or digits of which the first is not a zero. -/
def WholeNumber (text : List Char) : Prop :=
  text = ['0'] ∨ text.head? ≠ some '0' ∧ DigitRun Char.isDigit text

/-- A decimal integer with a leading zero has a digit that is not octal. -/
def PaddedNumber (text : List Char) : Prop :=
  ∃ ds, text = '0' :: ds ∧ (∀ d ∈ ds, d.isDigit) ∧ ∃ d ∈ ds, isOctalDigit d = false

/-- An optional exponent. -/
inductive Exponent : List Char → Prop
  | absent : Exponent []
  | written {letter sign ds} (hletter : letter ∈ ['e', 'E']) (hsign : sign ∈ [[], ['+'], ['-']])
      (hds : DigitRun Char.isDigit ds) : Exponent (letter :: (sign ++ ds))

/-- The letters that announce a radix. -/
def radixLetters : List (Char × Nat) :=
  [('x', 16), ('X', 16), ('o', 8), ('O', 8), ('b', 2), ('B', 2)]

def isDigitOf (radix : Nat) (ch : Char) : Bool :=
  (digitValue? radix ch).isSome

inductive NumberLiteral : List Char → Prop
  | whole {w e} (hw : WholeNumber w ∨ PaddedNumber w) (he : Exponent e) : NumberLiteral (w ++ e)
  | point {w f e} (hw : WholeNumber w ∨ PaddedNumber w)
      (hf : f = [] ∨ DigitRun Char.isDigit f) (he : Exponent e) :
      NumberLiteral (w ++ '.' :: (f ++ e))
  | fraction {f e} (hf : DigitRun Char.isDigit f) (he : Exponent e) :
      NumberLiteral ('.' :: (f ++ e))
  | radix {letter radix ds} (hletter : (letter, radix) ∈ radixLetters)
      (hds : DigitRun (isDigitOf radix) ds) : NumberLiteral ('0' :: letter :: ds)
  | legacyOctal {ds} (hne : ds ≠ []) (hds : ∀ d ∈ ds, isOctalDigit d) :
      NumberLiteral ('0' :: ds)

inductive BigIntLiteral : List Char → Prop
  | whole {w} (hw : WholeNumber w) : BigIntLiteral (w ++ ['n'])
  | radix {letter radix ds} (hletter : (letter, radix) ∈ radixLetters)
      (hds : DigitRun (isDigitOf radix) ds) : BigIntLiteral ('0' :: letter :: (ds ++ ['n']))

/-!
## Numerals as they are read
-/

/-- What may follow a digit in a run. -/
def RunRest (p : Char → Bool) (text : List Char) : Prop :=
  text = [] ∨ DigitRun p text ∨ ∃ ds, text = '_' :: ds ∧ DigitRun p ds

/-- Digits that may start with a zero only if nothing or an underscore follows it. -/
structure UnpaddedRun (text : List Char) : Prop where
  run : DigitRun Char.isDigit text
  leading : ∀ d ds, text = '0' :: d :: ds → d = '_'

/-- The numerals that are read, and whether they may be integers of arbitrary size. -/
inductive ReadNumeral : Bool → List Char → Prop
  | radix {letter radix d ds} (hletter : (letter, radix) ∈ radixLetters) (hd : isDigitOf radix d)
      (hds : ∀ ch ∈ ds, isDigitOf radix ch ∨ ch = '_') : ReadNumeral true ('0' :: letter :: d :: ds)
  | padded {d ds} (hds : ∀ ch ∈ d :: ds, ch.isDigit) : ReadNumeral false ('0' :: d :: ds)
  | whole {w} (hw : UnpaddedRun w) : ReadNumeral true w
  | scaled {w e} (hw : UnpaddedRun w) (he : Exponent e) : ReadNumeral false (w ++ e)
  | point {w f e} (hw : UnpaddedRun w) (hf : RunRest Char.isDigit f) (he : Exponent e) :
      ReadNumeral false (w ++ '.' :: (f ++ e))
  | fraction {f e} (hf : DigitRun Char.isDigit f) (he : Exponent e) :
      ReadNumeral false ('.' :: (f ++ e))

variable {p : Char → Bool} {u w v ds text : List Char} {d letter : Char} {radix : Nat}

/-!
## Digits
-/

theorem isHexDigit_of_isDigit (h : d.isDigit) : isHexDigit d := by
  simp [isHexDigit, h]

theorem radix_le_of_mem (h : (letter, radix) ∈ radixLetters) : radix ≤ 16 := by
  have hall : ∀ q ∈ radixLetters, q.2 ≤ 16 := by decide
  exact hall _ h

theorem isHexDigit_of_isDigitOf (hradix : radix ≤ 16) (h : isDigitOf radix d) :
    isHexDigit d := by
  have hle : ∀ a b : Char, a ≤ b ↔ a.toNat ≤ b.toNat := fun _ _ => Iff.rfl
  have ha : 'a'.toNat = 97 := rfl
  have hf : 'f'.toNat = 102 := rfl
  have hA : 'A'.toNat = 65 := rfl
  have hF : 'F'.toNat = 70 := rfl
  unfold isDigitOf digitValue? at h
  simp only [isHexDigit, Bool.or_eq_true, Bool.and_eq_true, decide_eq_true_eq, hle]
  by_cases hdigit : d.isDigit = true
  · exact .inl (.inl hdigit)
  · rw [if_neg hdigit] at h
    dsimp only at h
    split at h
    · rename_i hletter
      simp only [hle, Option.isSome_filter, Option.any_some, decide_eq_true_eq] at h hletter
      omega
    · split at h
      · rename_i hletter
        simp only [hle, Option.isSome_filter, Option.any_some, decide_eq_true_eq] at h hletter
        omega
      · cases h

theorem DigitRun.head (h : DigitRun p text) : ∃ d ds, text = d :: ds ∧ p d := by
  cases h with
  | single hd => exact ⟨_, _, rfl, hd⟩
  | digit hd => exact ⟨_, _, rfl, hd⟩
  | separated hd => exact ⟨_, _, rfl, hd⟩

theorem RunRest.cons (hd : p d) (h : RunRest p ds) : DigitRun p (d :: ds) := by
  rcases h with rfl | hds | ⟨ds, rfl, hds⟩
  · exact .single hd
  · exact .digit hd hds
  · exact .separated hd hds

/-!
## Underscores
-/

/-- Every underscore stands directly between two digits. -/
def BetweenDigits (text : List Char) : Prop :=
  ∀ before after, text = before ++ '_' :: after →
    (∃ d ∈ before.getLast?, isHexDigit d) ∧ ∃ d ∈ after.head?, isHexDigit d

/-- Every underscore stands directly between two digits, and none follows a leading zero. -/
structure SeparatorsPlaced (text : List Char) : Prop where
  between : BetweenDigits text
  leading : ¬ ['0', '_'] <+: text

theorem betweenDigits_of_not_mem (h : '_' ∉ text) : BetweenDigits text := by
  rintro before after rfl
  simp at h

theorem BetweenDigits.append (hw : BetweenDigits w) (hv : BetweenDigits v) :
    BetweenDigits (w ++ v) := by
  intro before after heq
  rcases List.append_eq_append_iff.mp heq with ⟨middle, rfl, hmiddle⟩ | ⟨middle, rfl, hmiddle⟩
  · rcases hv middle after hmiddle with ⟨⟨d, hd, hdigit⟩, hafter⟩
    exact ⟨⟨d, by simp [List.getLast?_append, Option.mem_def.mp hd], hdigit⟩, hafter⟩
  · cases middle with
    | nil =>
        rcases hv [] after hmiddle.symm with ⟨⟨d, hd, -⟩, -⟩
        cases hd
    | cons ch middle =>
        obtain ⟨rfl, rfl⟩ := List.cons.inj hmiddle
        rcases hw before middle rfl with ⟨hbefore, d, hd, hdigit⟩
        exact ⟨hbefore, d, by simp [List.head?_append, Option.mem_def.mp hd], hdigit⟩

theorem DigitRun.betweenDigits (h : DigitRun p text) (hp : ∀ d, p d → isHexDigit d) :
    BetweenDigits text := by
  have hne : ∀ {d}, p d → d ≠ '_' := by
    rintro d hd rfl
    exact absurd (hp _ hd) (by decide)
  induction h with
  | single hd => exact betweenDigits_of_not_mem (by simpa using (hne hd).symm)
  | @digit d ds hd _ ih =>
      have hfirst : BetweenDigits [d] := betweenDigits_of_not_mem (by simpa using (hne hd).symm)
      exact hfirst.append ih
  | @separated d ds hd hds ih =>
      rintro (_ | ⟨a, _ | ⟨b, before⟩⟩) after heq
      · exact absurd (List.cons.inj heq).1 (hne hd)
      · obtain ⟨ch, rest, rfl, hch⟩ := hds.head
        simp only [List.cons_append, List.nil_append, List.cons.injEq, true_and] at heq
        obtain ⟨rfl, rfl⟩ := heq
        exact ⟨⟨_, rfl, hp _ hd⟩, _, rfl, hp _ hch⟩
      · simp only [List.cons_append, List.cons.injEq] at heq
        obtain ⟨-, -, rfl⟩ := heq
        rcases ih before after rfl with ⟨⟨last, hlast, hdigit⟩, hafter⟩
        refine ⟨⟨last, ?_, hdigit⟩, hafter⟩
        simp [List.getLast?_cons, Option.mem_def.mp hlast]

theorem Exponent.betweenDigits (h : Exponent text) : BetweenDigits text := by
  cases h with
  | absent => exact betweenDigits_of_not_mem (by simp)
  | @written letter sign ds hletter hsign hds =>
      have hfirst : '_' ∉ letter :: sign := by
        simp only [List.mem_cons, List.not_mem_nil, or_false] at hletter hsign
        rcases hletter with rfl | rfl <;> rcases hsign with rfl | rfl | rfl <;> decide
      exact (betweenDigits_of_not_mem hfirst).append
        (hds.betweenDigits fun _ => isHexDigit_of_isDigit)

theorem Exponent.head (h : Exponent text) : text.head? ≠ some '_' := by
  cases h with
  | absent => nofun
  | written hletter =>
      simp only [List.mem_cons, List.not_mem_nil, or_false] at hletter
      rcases hletter with rfl | rfl <;> nofun

theorem WholeNumber.betweenDigits (h : WholeNumber text) : BetweenDigits text := by
  rcases h with rfl | ⟨-, h⟩
  · exact betweenDigits_of_not_mem (by decide)
  · exact h.betweenDigits fun _ => isHexDigit_of_isDigit

theorem PaddedNumber.betweenDigits (h : PaddedNumber text) : BetweenDigits text := by
  rcases h with ⟨ds, rfl, hds, -⟩
  refine betweenDigits_of_not_mem fun hmem => ?_
  rcases List.mem_cons.mp hmem with heq | hmem
  · cases heq
  · exact absurd (hds _ hmem) (by decide)

/-- An underscore behind a leading zero is not part of the integer. -/
theorem head_of_leading_separator (hw : WholeNumber w ∨ PaddedNumber w)
    (h : ['0', '_'] <+: w ++ v) : v.head? = some '_' := by
  obtain ⟨rest, hrest⟩ := h
  rcases hw with (rfl | ⟨hne, hrun⟩) | ⟨ds, rfl, hds, d, hd, -⟩
  · have htail : '_' :: rest = v := (List.cons.inj hrest).2
    rw [← htail]
    rfl
  · obtain ⟨d, ds, rfl, -⟩ := hrun.head
    exact absurd (congrArg some (List.cons.inj hrest).1.symm) hne
  · obtain ⟨first, others, rfl⟩ := List.exists_cons_of_ne_nil (List.ne_nil_of_mem hd)
    have hfirst := (List.cons.inj (List.cons.inj hrest).2).1
    have hdigit := hds first List.mem_cons_self
    rw [← hfirst] at hdigit
    cases hdigit

theorem NumberLiteral.separatorsPlaced (h : NumberLiteral text) : SeparatorsPlaced text := by
  have hint : ∀ {w}, WholeNumber w ∨ PaddedNumber w → BetweenDigits w := fun hw =>
    hw.elim WholeNumber.betweenDigits PaddedNumber.betweenDigits
  have hrun : ∀ {f}, DigitRun Char.isDigit f → BetweenDigits f := fun hf =>
    hf.betweenDigits fun _ => isHexDigit_of_isDigit
  have hpoint : BetweenDigits ['.'] := betweenDigits_of_not_mem (by decide)
  cases h with
  | whole hw he =>
      refine ⟨(hint hw).append he.betweenDigits, fun hlead => ?_⟩
      exact he.head (head_of_leading_separator hw hlead)
  | point hw hf he =>
      have hf' : BetweenDigits _ := hf.elim
        (fun hnil => hnil ▸ betweenDigits_of_not_mem (by simp)) hrun
      refine ⟨(hint hw).append (hpoint.append (hf'.append he.betweenDigits)), fun hlead => ?_⟩
      cases head_of_leading_separator hw hlead
  | fraction hf he =>
      refine ⟨hpoint.append ((hrun hf).append he.betweenDigits), fun hlead => ?_⟩
      cases (List.cons_prefix_cons.mp hlead).1
  | @radix letter radix ds hletter hds =>
      have hall : ∀ q ∈ radixLetters, q.1 ≠ '_' := by decide
      have hne := hall _ hletter
      have hfirst : BetweenDigits ['0', letter] :=
        betweenDigits_of_not_mem (by simpa using hne.symm)
      refine ⟨hfirst.append (hds.betweenDigits fun _ =>
        isHexDigit_of_isDigitOf (radix_le_of_mem hletter)), fun hlead => ?_⟩
      exact hne (List.cons_prefix_cons.mp (List.cons_prefix_cons.mp hlead).2).1.symm
  | @legacyOctal ds hne hds =>
      have hmem : '_' ∉ '0' :: ds := by
        intro hmem
        rcases List.mem_cons.mp hmem with heq | hmem
        · cases heq
        · exact absurd (hds _ hmem) (by decide)
      refine ⟨betweenDigits_of_not_mem hmem, fun hlead => hmem ?_⟩
      exact hlead.subset (by simp)

theorem BigIntLiteral.separatorsPlaced (h : BigIntLiteral text) : SeparatorsPlaced text := by
  have hsuffix : BetweenDigits ['n'] := betweenDigits_of_not_mem (by decide)
  cases h with
  | whole hw =>
      refine ⟨hw.betweenDigits.append hsuffix, fun hlead => ?_⟩
      cases head_of_leading_separator (.inl hw) hlead
  | @radix letter radix ds hletter hds =>
      have hradix := (NumberLiteral.radix hletter hds).separatorsPlaced
      refine ⟨hradix.between.append hsuffix, fun hlead => hradix.leading ?_⟩
      exact List.cons_prefix_cons.mpr ⟨rfl, List.cons_prefix_cons.mpr
        ⟨(List.cons_prefix_cons.mp (List.cons_prefix_cons.mp hlead).2).1, List.nil_prefix⟩⟩

/-!
## Grammatical numerals
-/

theorem UnpaddedRun.wholeNumber (h : UnpaddedRun w) (hlead : ¬ ['0', '_'] <+: w ++ v) :
    WholeNumber w := by
  by_cases hzero : w.head? = some '0'
  · obtain ⟨ds, rfl⟩ := List.head?_eq_some_iff.mp hzero
    cases ds with
    | nil => exact .inl rfl
    | cons d ds =>
        obtain rfl := h.leading d ds rfl
        exact absurd ⟨ds ++ v, rfl⟩ hlead
  · exact .inr ⟨hzero, h.run⟩

/-- When every underscore is followed by a digit, digits and underscores make a run. -/
theorem runRest_of_followed (hp : ∀ d, isHexDigit d = true → d ≠ '_')
    (hw : ∀ ch ∈ w, p ch ∨ ch = '_') (hv : ∀ ch ∈ v.head?, isHexDigit ch = false)
    (hfollowed : ∀ before after, w ++ v = before ++ '_' :: after →
      ∃ d ∈ after.head?, isHexDigit d) : RunRest p w := by
  induction w with
  | nil => exact .inl rfl
  | cons ch w ih =>
      have hrest := ih (fun a ha => hw a (List.mem_cons_of_mem ch ha))
        fun before after heq => hfollowed (ch :: before) after (congrArg (ch :: ·) heq)
      rcases hw ch List.mem_cons_self with hch | rfl
      · exact .inr (.inl (hrest.cons hch))
      · rcases hfollowed [] (w ++ v) rfl with ⟨d, hd, hdigit⟩
        rcases hrest with rfl | hrun | ⟨ds, rfl, -⟩
        · exact absurd hdigit (by simp [hv d hd])
        · exact .inr (.inr ⟨w, rfl, hrun⟩)
        · exact absurd (Option.some.inj hd).symm (hp d hdigit)

theorem digitRun_of_between (hd : isDigitOf radix d)
    (hds : ∀ ch ∈ ds, isDigitOf radix ch ∨ ch = '_') (hv : ∀ ch ∈ v.head?, isHexDigit ch = false)
    (hbetween : BetweenDigits (u ++ d :: (ds ++ v))) :
    DigitRun (isDigitOf radix) (d :: ds) := by
  refine RunRest.cons hd (runRest_of_followed ?_ hds hv fun before after heq => ?_)
  · rintro ch hch rfl
    exact absurd hch (by decide)
  · exact (hbetween (u ++ d :: before) after (by simp [heq])).2

/-- Underscores are all that may be wrong with a number that is read. -/
theorem ReadNumeral.numberLiteral_iff {integer : Bool} (h : ReadNumeral integer text) :
    NumberLiteral text ↔ SeparatorsPlaced text := by
  refine ⟨NumberLiteral.separatorsPlaced, fun hplaced => ?_⟩
  cases h with
  | @radix letter radix d ds hletter hd hds =>
      refine .radix hletter (digitRun_of_between (u := ['0', letter]) (v := []) hd hds nofun ?_)
      rw [List.append_nil]
      exact hplaced.between
  | @padded d ds hds =>
      by_cases hother : ∃ ch ∈ d :: ds, isOctalDigit ch = false
      · have hliteral := NumberLiteral.whole (.inr ⟨d :: ds, rfl, hds, hother⟩) .absent
        rwa [List.append_nil] at hliteral
      · refine .legacyOctal (List.cons_ne_nil d ds) fun ch hch => ?_
        cases hoctal : isOctalDigit ch with
        | true => rfl
        | false => exact absurd ⟨ch, hch, hoctal⟩ hother
  | whole hw =>
      have hwhole := hw.wholeNumber (v := []) (by simpa using hplaced.leading)
      have hliteral := NumberLiteral.whole (.inl hwhole) .absent
      rwa [List.append_nil] at hliteral
  | scaled hw he => exact .whole (.inl (hw.wholeNumber hplaced.leading)) he
  | @point w f e hw hf he =>
      refine .point (.inl (hw.wholeNumber hplaced.leading)) ?_ he
      rcases hf with rfl | hrun | ⟨ds, rfl, -⟩
      · exact .inl rfl
      · exact .inr hrun
      · rcases hplaced.between (w ++ ['.']) (ds ++ e) (by simp) with ⟨⟨d, hd, hdigit⟩, -⟩
        obtain rfl : '.' = d := by simpa using hd
        cases hdigit
  | fraction hf he => exact .fraction hf he

theorem ReadNumeral.bigIntLiteral_iff (h : ReadNumeral true text) :
    BigIntLiteral (text ++ ['n']) ↔ SeparatorsPlaced (text ++ ['n']) := by
  refine ⟨BigIntLiteral.separatorsPlaced, fun hplaced => ?_⟩
  cases h with
  | @radix letter radix d ds hletter hd hds =>
      refine .radix hletter (digitRun_of_between (u := ['0', letter]) (v := ['n']) hd hds ?_
        hplaced.between)
      simp [show isHexDigit 'n' = false by decide]
  | whole hw => exact .whole (hw.wholeNumber hplaced.leading)

end Text

/-!
## Reading
-/

section Reading

variable {c next : Cursor} {number : Float} {integer : Bool}

theorem radixRun_spec {radix : Nat} (h : (radixRun radix c).1 ≠ []) :
    ∃ d ds, c.Spans (d :: ds) (radixRun radix c).2 ∧ isDigitOf radix d ∧
      ∀ ch ∈ ds, isDigitOf radix ch ∨ ch = '_' := by
  rcases c with ⟨_ | ⟨d, rest⟩, offset⟩
  · exact absurd rfl h
  · unfold radixRun at h ⊢
    dsimp only at h ⊢
    rw [radixRunFrom, if_neg (by simp)] at h ⊢
    cases hdigit : digitValue? radix d with
    | none =>
        rw [hdigit] at h
        exact absurd rfl h
    | some digit =>
        rcases spans_radixRunFrom radix [digit] rest (offset + 1) with ⟨ds, hspans, hds⟩
        refine ⟨d, ds, spans_cons (utf8Size_of_digitValue? hdigit) hspans, ?_, hds⟩
        rw [isDigitOf, hdigit]
        rfl

/-- A run goes on at an underscore only when a digit follows. -/
theorem decimalRunFrom_spec (reversed chars : List Char) (offset : Nat) :
    ∃ w, Spans ⟨chars, offset⟩ w (decimalRunFrom reversed chars offset).2 ∧
      RunRest Char.isDigit w ∧ (chars.head?.any Char.isDigit → DigitRun Char.isDigit w) := by
  induction chars generalizing reversed offset with
  | nil => exact ⟨[], .refl _, .inl rfl, nofun⟩
  | cons ch rest ih =>
      rw [decimalRunFrom]
      split
      · rename_i hdigit
        rcases ih (ch :: reversed) (offset + 1) with ⟨w, hw, hrest, -⟩
        have hrun := hrest.cons hdigit
        exact ⟨ch :: w, spans_cons (utf8Size_of_isDigit hdigit) hw, .inr (.inl hrun), fun _ => hrun⟩
      · rename_i hdigit
        split
        · rename_i hseparator
          rcases ih reversed (offset + 1) with ⟨w, hw, -, hrun⟩
          refine ⟨ch :: w, spans_cons (hseparator.1 ▸ rfl) hw, ?_, fun h => absurd h hdigit⟩
          exact .inr (.inr ⟨w, by rw [hseparator.1], hrun hseparator.2⟩)
        · exact ⟨[], .refl _, .inl rfl, fun h => absurd h hdigit⟩

theorem decimalRun_spec (c : Cursor) :
    ∃ w, c.Spans w (decimalRun c).2 ∧ RunRest Char.isDigit w ∧
      (c.head?.any Char.isDigit → DigitRun Char.isDigit w) :=
  decimalRunFrom_spec [] c.rest c.offset

theorem spans_of_head? {ch : Char} (h : c.head? = some ch) : c.Spans [ch] c.advance := by
  obtain ⟨rest, hrest⟩ := List.head?_eq_some_iff.mp h
  exact spans_advance hrest

theorem readExponent?_spec {letter : Char} {value : Int} (hletter : letter ∈ ['e', 'E'])
    (hhead : c.head? = some letter) (h : readExponent? c.advance = some (value, next)) :
    ∃ e, c.Spans e next ∧ Exponent e := by
  unfold readExponent? at h
  dsimp only at h
  have hsign : ∃ sign ∈ [[], ['+'], ['-']], c.advance.Spans sign
      (if (c.advance.head? == some '-' || c.advance.head? == some '+') then c.advance.advance
        else c.advance) := by
    split
    · rename_i hsome
      rcases (Bool.or_eq_true _ _).mp hsome with hminus | hplus
      · exact ⟨['-'], by simp, spans_of_head? (beq_iff_eq.mp hminus)⟩
      · exact ⟨['+'], by simp, spans_of_head? (beq_iff_eq.mp hplus)⟩
    · exact ⟨[], by simp, .refl _⟩
  rcases hsign with ⟨sign, hmem, hspans⟩
  generalize (if (c.advance.head? == some '-' || c.advance.head? == some '+') then
    c.advance.advance else c.advance) = digitsAt at h hspans
  split at h
  · rename_i hdigit
    rcases decimalRun_spec digitsAt with ⟨ds, hds, -, hrun⟩
    cases h
    refine ⟨letter :: (sign ++ ds), ?_, .written hletter hmem (hrun hdigit)⟩
    exact (spans_of_head? hhead).trans (hspans.trans hds)
  · cases h

/-- An exponent makes a numeral no integer. -/
theorem exponent_spec {plain : Bool} {unscaled : Float} {scaled : Int → Float}
    (hread : (if c.head? = some 'e' ∨ c.head? = some 'E' then
        match readExponent? c.advance with
        | some (exponent, next) => NumeralReading.value (scaled exponent) false next
        | none => .digitExpected c
      else .value unscaled plain c) = .value number integer next) :
    ∃ e, c.Spans e next ∧ Exponent e ∧ (integer = false ∨ integer = plain ∧ e = []) := by
  split at hread
  · rename_i hletter
    obtain ⟨letter, hmem, hhead⟩ : ∃ letter ∈ ['e', 'E'], c.head? = some letter := by
      rcases hletter with hlower | hupper
      · exact ⟨'e', by simp, hlower⟩
      · exact ⟨'E', by simp, hupper⟩
    cases hexponent : readExponent? c.advance with
    | none =>
        rw [hexponent] at hread
        cases hread
    | some r =>
        rw [hexponent] at hread
        cases hread
        rcases readExponent?_spec hmem hhead hexponent with ⟨e, hspans, he⟩
        exact ⟨e, hspans, he, .inl rfl⟩
  · cases hread
    exact ⟨[], .refl _, .absent, .inr ⟨rfl, rfl⟩⟩

/-- A run at a place where no digits with a leading zero stand. -/
theorem unpaddedRun_of_spans {w : List Char} {d : Cursor} (hspans : c.Spans w d)
    (hrun : DigitRun Char.isDigit w)
    (hlead : ¬ (c.head? = some '0' ∧ c.advance.head?.any Char.isDigit)) : UnpaddedRun w := by
  refine ⟨hrun, ?_⟩
  rintro second ds rfl
  have hrest : c.rest = '0' :: second :: (ds ++ d.rest) := hspans.rest
  have hsecond : ¬ second.isDigit := by
    intro hdigit
    refine hlead ⟨by rw [Cursor.head?, hrest]; rfl, ?_⟩
    simp [Cursor.head?, advance, hrest, hdigit]
  cases hrun with
  | digit _ hds =>
      obtain ⟨_, _, heq, hdigit⟩ := hds.head
      obtain ⟨rfl, -⟩ := List.cons.inj heq
      exact absurd hdigit hsecond
  | separated => rfl

/-- No run starts at a dot. -/
theorem head?_of_dot {w : List Char} {d : Cursor} (hspans : c.Spans w d)
    (hrest : RunRest Char.isDigit w) (hdot : c.rest.head? = some '.') :
    w = [] ∧ d.head? = some '.' := by
  have hc := hspans.rest
  obtain rfl : w = [] := by
    cases w with
    | nil => rfl
    | cons ch w =>
        obtain rfl : ch = '.' := by
          rw [hc] at hdot
          exact Option.some.inj hdot
        rcases hrest with hnil | hrun | ⟨ds, heq, -⟩
        · cases hnil
        · obtain ⟨_, _, heq, hdigit⟩ := hrun.head
          obtain ⟨rfl, -⟩ := List.cons.inj heq
          cases hdigit
        · cases (List.cons.inj heq).1
  exact ⟨rfl, by rw [Cursor.head?, ← hdot, hc]; rfl⟩

theorem readDecimalNumeral_spec (h : StartsNumeral c.rest)
    (hlead : ¬ (c.head? = some '0' ∧ c.advance.head?.any Char.isDigit))
    (hread : readDecimalNumeral c = .value number integer next) :
    ∃ w, c.Spans w next ∧ ReadNumeral integer w := by
  rcases decimalRun_spec c with ⟨w, hw, hrest, hrun⟩
  unfold readDecimalNumeral at hread
  generalize decimalRun c = run at hread hw
  rcases run with ⟨whole, d⟩
  dsimp only at hread hw
  by_cases hpoint : d.head? = some '.'
  · rcases decimalRun_spec d.advance with ⟨f, hf, hfrest, hfrun⟩
    have hbeq : (d.head? == some '.') = true := beq_iff_eq.mpr hpoint
    simp only [hbeq, if_true] at hread
    generalize decimalRun d.advance = run at hread hf
    rcases exponent_spec hread with ⟨e, he, hexponent, hinteger⟩
    obtain rfl : integer = false := hinteger.elim id fun h => h.1
    have hspans : c.Spans (w ++ '.' :: (f ++ e)) next :=
      hw.trans ((spans_of_head? hpoint).trans (hf.trans he))
    refine ⟨_, hspans, ?_⟩
    rcases h with hdigit | ⟨hdot, hdigit⟩
    · exact .point (unpaddedRun_of_spans hw (hrun hdigit) hlead) hfrest hexponent
    · obtain ⟨rfl, -⟩ := head?_of_dot hw hrest hdot
      refine .fraction (hfrun ?_) hexponent
      obtain ⟨rest, hdot⟩ := List.head?_eq_some_iff.mp hdot
      have hrest' : d.rest = '.' :: rest := hw.rest.symm.trans hdot
      rw [hdot] at hdigit
      simpa [Cursor.head?, advance, hrest'] using hdigit
  · have hbeq : (d.head? == some '.') = false := beq_eq_false_iff_ne.mpr hpoint
    simp only [hbeq, Bool.false_eq_true, if_false] at hread
    rcases exponent_spec hread with ⟨e, he, hexponent, hinteger⟩
    have hwhole : UnpaddedRun w := by
      rcases h with hdigit | ⟨hdot, -⟩
      · exact unpaddedRun_of_spans hw (hrun hdigit) hlead
      · exact absurd (head?_of_dot hw hrest hdot).2 hpoint
    rcases hinteger with rfl | ⟨rfl, rfl⟩
    · exact ⟨w ++ e, hw.trans he, .scaled hwhole hexponent⟩
    · refine ⟨w, ?_, .whole hwhole⟩
      have hspans := hw.trans he
      rwa [List.append_nil] at hspans

theorem radix_of_radixOf? {radix : Nat} (h : radixOf? c.rest = some radix) :
    ∃ letter, (letter, radix) ∈ radixLetters ∧ c.Spans ['0', letter] (c.skip 2) := by
  have hspans : ∀ {letter rest}, c.rest = '0' :: letter :: rest →
      c.Spans ['0', letter] (c.skip 2) := by
    intro letter rest hrest
    have hfirst : c.Spans ['0'] c.advance := spans_advance hrest
    have hadvance : c.advance.rest = letter :: rest := by simp [advance, hrest]
    exact hfirst.trans (spans_advance hadvance)
  unfold radixOf? at h
  split at h <;> cases h <;> refine ⟨_, ?_, hspans ‹_›⟩ <;> decide

theorem readLeadingZero_spec (hzero : c.head? = some '0')
    (hdigit : c.advance.head?.any Char.isDigit)
    (hread : readLeadingZero c = .value number integer next) :
    ∃ w, c.Spans w next ∧ ReadNumeral integer w := by
  cases hread
  obtain ⟨rest, hrest⟩ := List.head?_eq_some_iff.mp hzero
  cases rest with
  | nil => simp [Cursor.head?, advance, hrest] at hdigit
  | cons d rest =>
      have hd : d.isDigit := by simpa [Cursor.head?, advance, hrest] using hdigit
      rcases c with ⟨chars, offset⟩
      obtain rfl : chars = '0' :: d :: rest := hrest
      rcases spans_dropWhileFrom Char.isDigit rest (offset + 1 + d.utf8Size) with ⟨ds, hds, hall⟩
      refine ⟨'0' :: d :: ds, ?_, .padded (List.forall_mem_cons.mpr ⟨hd, hall⟩)⟩
      rw [utf8Size_of_isDigit hd] at hds
      have hdrop : dropWhile Char.isDigit ⟨'0' :: d :: rest, offset⟩ =
          dropWhileFrom Char.isDigit rest (offset + 1 + 1) := by
        rw [dropWhile, dropWhileFrom, if_pos (by decide), dropWhileFrom, if_pos hd,
          utf8Size_of_isDigit hd]
        rfl
      rw [hdrop]
      exact spans_cons rfl (spans_cons (utf8Size_of_isDigit hd) hds)

theorem readNumeral_spec (h : StartsNumeral c.rest)
    (hread : readNumeral c = .value number integer next) :
    ∃ w, c.Spans w next ∧ ReadNumeral integer w := by
  unfold readNumeral at hread
  split at hread
  · rename_i radix hradix
    rcases radix_of_radixOf? hradix with ⟨letter, hletter, hspans⟩
    unfold readRadixNumeral at hread
    dsimp only at hread
    split at hread
    · cases hread
    · rename_i hdigits
      cases hread
      have hne : (radixRun radix (c.skip 2)).1 ≠ [] := fun hnil => hdigits (by rw [hnil]; rfl)
      rcases radixRun_spec hne with ⟨d, ds, hrun, hd, hds⟩
      exact ⟨_, hspans.trans hrun, .radix hletter hd hds⟩
  · split at hread
    · rename_i hzero
      exact readLeadingZero_spec hzero.1 hzero.2 hread
    · exact readDecimalNumeral_spec h ‹_› hread

/-- The text of a number is a numeral, with a suffix when it is of arbitrary size. -/
theorem readNumber_spec (h : StartsNumeral c.rest) :
    ((readNumber c).lexeme.kind = .numeric → ∃ integer w, c.Spans w (readNumber c).next ∧
      ReadNumeral integer w) ∧
    ((readNumber c).lexeme.kind = .bigInt → ∃ w, c.Spans (w ++ ['n']) (readNumber c).next ∧
      ReadNumeral true w) := by
  unfold readNumber
  cases hread : readNumeral c with
  | digitExpected next => exact ⟨nofun, nofun⟩
  | value number integer behind =>
      rcases readNumeral_spec h hread with ⟨w, hw, hnumeral⟩
      dsimp only
      cases hbig : integer && behind.head? == some 'n' with
      | true =>
          obtain ⟨rfl, hhead⟩ := (Bool.and_eq_true _ _).mp hbig
          have hspans := hw.trans (spans_of_head? (beq_iff_eq.mp hhead))
          simp only [if_true]
          split
          · exact ⟨nofun, nofun⟩
          · exact ⟨nofun, fun _ => ⟨w, hspans, hnumeral⟩⟩
      | false =>
          simp only [Bool.false_eq_true, if_false]
          split
          · exact ⟨nofun, nofun⟩
          · exact ⟨fun _ => ⟨integer, w, hw, hnumeral⟩, nofun⟩

/-- Only digits, and a dot before one, start numbers. -/
theorem startsNumeral_of_readToken {depths : List Nat} {kind : TokenKind}
    (hkind : kind = .numeric ∨ kind = .bigInt) (h : (readToken depths c).lexeme.kind = kind) :
    StartsNumeral c.rest := by
  have hunknown : kind ≠ .unknown := by rcases hkind with rfl | rfl <;> nofun
  have hname : ∀ n c, (readNameFrom n c).lexeme.kind ≠ kind :=
    kind_readNameFrom kind hunknown (by rcases hkind with rfl | rfl <;> nofun)
      (by rcases hkind with rfl | rfl <;> nofun)
  unfold readToken at h
  cases hrest : c.rest with
  | nil =>
      rw [hrest] at h
      rcases hkind with rfl | rfl <;> cases h
  | cons ch rest =>
      rw [hrest] at h
      dsimp only at h
      split at h
      · refine absurd h (kind_readStringFrom kind hunknown ?_ _ _ _ _ _)
        rcases hkind with rfl | rfl <;> nofun
      split at h
      · refine absurd h (kind_readTemplateFrom kind hunknown ?_ ?_ _ _ _ _) <;>
          rcases hkind with rfl | rfl <;> rintro ⟨⟩
      split at h
      · rename_i hstart
        simpa [StartsNumeral] using hstart
      split at h
      · refine absurd h (kind_readTemplateFrom kind hunknown ?_ ?_ _ _ _ _) <;>
          rcases hkind with rfl | rfl <;> rintro ⟨⟩
      split at h
      · unfold readPrivateName at h
        dsimp only at h
        split at h
        · split at h
          · exact absurd h (hname _ _)
          · rcases hkind with rfl | rfl <;> cases h
        · rcases hkind with rfl | rfl <;> cases h
      split at h
      · exact absurd h (hname _ _)
      · unfold readPunctuator at h
        split at h <;> rcases hkind with rfl | rfl <;> cases h

end Reading

namespace Scanner

/-- What is scanned as a number is a number of the grammar iff its underscores are where the
grammar puts them. -/
theorem scan_number_iff (s : Scanner) :
    (s.scan.token.kind = .numeric →
      (NumberLiteral s.scan.token.text.toList ↔ SeparatorsPlaced s.scan.token.text.toList)) ∧
    (s.scan.token.kind = .bigInt →
      (BigIntLiteral s.scan.token.text.toList ↔
        SeparatorsPlaced s.scan.token.text.toList)) := by
  unfold scan
  cases hgap : Gap.skip .between false s.token.next.rest s.token.next.offset with
  | openComment start stop lineBreak => exact ⟨nofun, nofun⟩
  | token start lineBreak =>
      dsimp only [Token.text]
      have hread : ∀ {kind}, kind = .numeric ∨ kind = .bigInt →
          (readToken s.depths start).lexeme.kind = kind →
          StartsNumeral start.rest ∧ readToken s.depths start = readNumber start := by
        intro kind hkind h
        have hstarts := startsNumeral_of_readToken hkind h
        exact ⟨hstarts, readToken_of_startsNumeral hstarts s.depths start.offset⟩
      have htext : ∀ {w next}, start.Spans w next → (start.textTo next).toList = w := by
        intro w next hspans
        rw [textTo, String.toList_ofList, hspans.charsTo]
      constructor
      · intro hkind
        rcases hread (.inl rfl) hkind with ⟨hstarts, heq⟩
        rw [heq] at hkind ⊢
        rcases (readNumber_spec hstarts).1 hkind with ⟨integer, w, hspans, hnumeral⟩
        rw [htext hspans]
        exact hnumeral.numberLiteral_iff
      · intro hkind
        rcases hread (.inr rfl) hkind with ⟨hstarts, heq⟩
        rw [heq] at hkind ⊢
        rcases (readNumber_spec hstarts).2 hkind with ⟨w, hspans, hnumeral⟩
        rw [htext hspans]
        exact hnumeral.bigIntLiteral_iff

/-- An underscore at the end of a run in a radix, and one behind a leading zero. -/
theorem scan_number_misplaced :
    (ofString "0x1_").scan.token.kind = .numeric ∧
      (ofString "0x1_").scan.token.text = "0x1_" ∧ ¬ NumberLiteral "0x1_".toList ∧
      (ofString "0_1n").scan.token.kind = .bigInt ∧
      (ofString "0_1n").scan.token.text = "0_1n" ∧ ¬ BigIntLiteral "0_1n".toList := by
  obtain ⟨hhex, hhextext, hbig, hbigtext⟩ :
      (ofString "0x1_").scan.token.kind = .numeric ∧
        (ofString "0x1_").scan.token.text = "0x1_" ∧
        (ofString "0_1n").scan.token.kind = .bigInt ∧
        (ofString "0_1n").scan.token.text = "0_1n" := by
    decide +kernel
  refine ⟨hhex, hhextext, fun hliteral => ?_, hbig, hbigtext, fun hliteral => ?_⟩
  · have hplaced := ((scan_number_iff _).1 hhex).mp (hhextext ▸ hliteral)
    rw [hhextext] at hplaced
    rcases (hplaced.between ['0', 'x', '1'] [] rfl).2 with ⟨d, hd, -⟩
    cases hd
  · have hplaced := ((scan_number_iff _).2 hbig).mp (hbigtext ▸ hliteral)
    rw [hbigtext] at hplaced
    exact hplaced.leading ⟨['1', 'n'], rfl⟩

end Scanner
end Untangle
