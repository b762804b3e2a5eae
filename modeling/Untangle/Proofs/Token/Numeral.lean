import Untangle.Proofs.Token.Span
import Untangle.Token.Numeral
import Untangle.Token.Scanner

/-!
# Reading numerals in longer texts

A numeral is read alike wherever it stands, as long as the character behind it cannot go on with
it. A dot can, but only behind a decimal integer.
-/

namespace Untangle

open Cursor

variable {c d : Cursor} {before : Nat} {after : List Char} {stop : Char}

/-- The characters that end a numeral here: a dot, a closing parenthesis and the end of a line. -/
def Stops (stop : Char) : Prop :=
  stop = '.' ∨ stop = ')' ∨ stop = '\n'

namespace Stops

theorem isDigit (h : Stops stop) : stop.isDigit = false := by
  rcases h with rfl | rfl | rfl <;> rfl

theorem ne_separator (h : Stops stop) : stop ≠ '_' := by
  rcases h with rfl | rfl | rfl <;> decide

theorem digitValue? (h : Stops stop) (radix : Nat) : Text.digitValue? radix stop = none := by
  rcases h with rfl | rfl | rfl <;> rfl

theorem isIdentifierStart (h : Stops stop) : Text.isIdentifierStart stop = false := by
  rcases h with rfl | rfl | rfl <;> decide

theorem ne_letter {ch : Char} (h : Stops stop) (hch : ch.isAlpha) : ch ≠ stop := by
  rintro rfl
  rcases h with rfl | rfl | rfl <;> cases hch

end Stops

/-!
## Digit runs
-/

theorem isDigit_iff (ch : Char) : ch.isDigit = true ↔ 48 ≤ ch.toNat ∧ ch.toNat ≤ 57 := by
  rw [Char.isDigit, Bool.and_eq_true, decide_eq_true_eq, decide_eq_true_eq]
  exact Iff.rfl

theorem isOctalDigit_iff (ch : Char) :
    Text.isOctalDigit ch = true ↔ 48 ≤ ch.toNat ∧ ch.toNat ≤ 55 := by
  rw [Text.isOctalDigit, Bool.and_eq_true, decide_eq_true_eq, decide_eq_true_eq]
  exact Iff.rfl

theorem utf8Size_of_isDigit {ch : Char} (h : ch.isDigit) : ch.utf8Size = 1 := by
  simp only [Char.isDigit, ge_iff_le, Bool.and_eq_true, decide_eq_true_eq] at h
  exact Char.utf8Size_eq_one_iff.mpr (UInt32.le_trans h.2 (by decide))

theorem utf8Size_of_digitValue? {radix digit : Nat} {ch : Char}
    (h : Text.digitValue? radix ch = some digit) : ch.utf8Size = 1 := by
  rw [Char.utf8Size_eq_one_iff]
  unfold Text.digitValue? at h
  split at h
  · exact Char.utf8Size_eq_one_iff.mp (utf8Size_of_isDigit ‹_›)
  · split at h
    · rename_i hletter
      exact UInt32.le_trans hletter.2 (by decide)
    · split at h
      · rename_i hletter
        exact UInt32.le_trans hletter.2 (by decide)
      · cases h

/-- One character of a single byte and a span behind it. -/
theorem spans_cons {ch : Char} {rest w : List Char} {offset : Nat} (hsize : ch.utf8Size = 1)
    (h : Spans ⟨rest, offset + 1⟩ w d) : Spans ⟨ch :: rest, offset⟩ (ch :: w) d := by
  have hch : Spans ⟨ch :: rest, offset⟩ [ch] ⟨rest, offset + ch.utf8Size⟩ := spans_advance rfl
  rw [hsize] at hch
  exact hch.trans h

theorem spans_decimalRunFrom (reversed chars : List Char) (offset : Nat) :
    ∃ w, Spans ⟨chars, offset⟩ w (decimalRunFrom reversed chars offset).2 ∧
      ∀ ch ∈ w, ch.isDigit ∨ ch = '_' := by
  induction chars generalizing reversed offset with
  | nil => exact ⟨[], .refl _, by simp⟩
  | cons ch rest ih =>
      rw [decimalRunFrom]
      split
      · rename_i hdigit
        rcases ih (ch :: reversed) (offset + 1) with ⟨w, hw, hall⟩
        refine ⟨ch :: w, spans_cons (utf8Size_of_isDigit hdigit) hw, ?_⟩
        exact List.forall_mem_cons.mpr ⟨Or.inl hdigit, hall⟩
      · split
        · rename_i hseparator
          rcases ih reversed (offset + 1) with ⟨w, hw, hall⟩
          refine ⟨ch :: w, spans_cons (hseparator.1 ▸ rfl) hw, ?_⟩
          exact List.forall_mem_cons.mpr ⟨Or.inr hseparator.1, hall⟩
        · exact ⟨[], .refl _, by simp⟩

theorem spans_decimalRun (c : Cursor) :
    ∃ w, c.Spans w (decimalRun c).2 ∧ ∀ ch ∈ w, ch.isDigit ∨ ch = '_' :=
  spans_decimalRunFrom [] c.rest c.offset

theorem reaches_decimalRun (c : Cursor) : c.Reaches (decimalRun c).2 := by
  rcases spans_decimalRun c with ⟨w, hw, _⟩
  exact ⟨w, hw⟩

theorem spans_radixRunFrom (radix : Nat) (reversed : List Nat) (chars : List Char)
    (offset : Nat) :
    ∃ w, Spans ⟨chars, offset⟩ w (radixRunFrom radix reversed chars offset).2 ∧
      ∀ ch ∈ w, (Text.digitValue? radix ch).isSome ∨ ch = '_' := by
  induction chars generalizing reversed offset with
  | nil => exact ⟨[], .refl _, by simp⟩
  | cons ch rest ih =>
      rw [radixRunFrom]
      split
      · rename_i hseparator
        rcases ih reversed (offset + 1) with ⟨w, hw, hall⟩
        refine ⟨ch :: w, spans_cons (hseparator.1 ▸ rfl) hw, ?_⟩
        exact List.forall_mem_cons.mpr ⟨Or.inr hseparator.1, hall⟩
      · split
        · rename_i digit hdigit
          rcases ih (digit :: reversed) (offset + 1) with ⟨w, hw, hall⟩
          refine ⟨ch :: w, spans_cons (utf8Size_of_digitValue? hdigit) hw, ?_⟩
          exact List.forall_mem_cons.mpr ⟨Or.inl (by rw [hdigit]; rfl), hall⟩
        · exact ⟨[], .refl _, by simp⟩

theorem reaches_radixRun (radix : Nat) (c : Cursor) : c.Reaches (radixRun radix c).2 := by
  rcases spans_radixRunFrom radix [] c.rest c.offset with ⟨w, hw, _⟩
  exact ⟨w, hw⟩

theorem decimalRunFrom_inside (hstop : Stops stop) (reversed chars : List Char) (offset : Nat) :
    decimalRunFrom reversed (chars ++ stop :: after) (offset + before) =
      ((decimalRunFrom reversed chars offset).1,
        (decimalRunFrom reversed chars offset).2.inside before (stop :: after)) := by
  induction chars generalizing reversed offset with
  | nil => simp [decimalRunFrom, hstop.isDigit, hstop.ne_separator, Cursor.inside]
  | cons ch rest ih =>
      have hnext : (rest ++ stop :: after).head?.any Char.isDigit =
          rest.head?.any Char.isDigit := by
        cases rest with
        | nil => simp [hstop.isDigit]
        | cons _ _ => rfl
      rw [List.cons_append, decimalRunFrom, decimalRunFrom, hnext, Nat.add_right_comm]
      split
      · exact ih _ _
      · split
        · exact ih _ _
        · rfl

theorem decimalRun_inside (hstop : Stops stop) :
    decimalRun (c.inside before (stop :: after)) =
      ((decimalRun c).1, (decimalRun c).2.inside before (stop :: after)) :=
  decimalRunFrom_inside hstop [] c.rest c.offset

theorem radixRunFrom_inside (hstop : Stops stop) (radix : Nat) (reversed : List Nat)
    (chars : List Char) (offset : Nat) :
    radixRunFrom radix reversed (chars ++ stop :: after) (offset + before) =
      ((radixRunFrom radix reversed chars offset).1,
        (radixRunFrom radix reversed chars offset).2.inside before (stop :: after)) := by
  induction chars generalizing reversed offset with
  | nil =>
      simp [radixRunFrom, hstop.ne_separator, hstop.digitValue?, Cursor.inside]
  | cons ch rest ih =>
      rw [List.cons_append, radixRunFrom, radixRunFrom, Nat.add_right_comm]
      split
      · exact ih _ _
      · cases Text.digitValue? radix ch with
        | none => rfl
        | some digit => exact ih _ _

theorem radixRun_inside (hstop : Stops stop) (radix : Nat) :
    radixRun radix (c.inside before (stop :: after)) =
      ((radixRun radix c).1, (radixRun radix c).2.inside before (stop :: after)) :=
  radixRunFrom_inside hstop radix [] c.rest c.offset

/-!
## Numerals
-/

/-- The same reading in a longer text. -/
def NumeralReading.inside (before : Nat) (after : List Char) : NumeralReading → NumeralReading
  | .value number integer next => .value number integer (next.inside before after)
  | .digitExpected next => .digitExpected (next.inside before after)

theorem readExponent?_inside (hstop : Stops stop) :
    readExponent? (c.inside before (stop :: after)) =
      (readExponent? c).map fun r => (r.1, r.2.inside before (stop :: after)) := by
  have hminus : '-' ≠ stop := by rcases hstop with rfl | rfl | rfl <;> decide
  have hplus : '+' ≠ stop := by rcases hstop with rfl | rfl | rfl <;> decide
  unfold readExponent?
  dsimp only
  rw [head?_beq_inside hminus, head?_beq_inside hplus, advance_inside_of]
  · generalize (if (c.head? == some '-' || c.head? == some '+') then c.advance else c) = digitsAt
    rw [any_head?_inside hstop.isDigit, decimalRun_inside hstop]
    split
    · rfl
    · rfl
  · intro hsign
    rcases (Bool.or_eq_true _ _).mp hsign with hsign | hsign
    · exact ne_nil_of_head? (beq_iff_eq.mp hsign)
    · exact ne_nil_of_head? (beq_iff_eq.mp hsign)

theorem readDecimalNumeral_inside (hstop : Stops stop)
    (hwhole : stop = '.' → (decimalRun c).2.rest ≠ []) :
    readDecimalNumeral (c.inside before (stop :: after)) =
      (readDecimalNumeral c).inside before (stop :: after) := by
  have hpoint : (((decimalRun c).2.inside before (stop :: after)).head? == some '.') =
      ((decimalRun c).2.head? == some '.') := by
    cases hrest : (decimalRun c).2.rest with
    | nil =>
        have hne : '.' ≠ stop := fun heq => hwhole heq.symm hrest
        exact head?_beq_inside hne
    | cons ch rest => simp [Cursor.head?, Cursor.inside, hrest]
  have hfraction : ∀ d : Cursor, ∀ point : Bool, (point = true → d.rest ≠ []) →
      (if point then decimalRun (d.inside before (stop :: after)).advance
        else ([], d.inside before (stop :: after))) =
      ((if point then decimalRun d.advance else ([], d)).1,
        (if point then decimalRun d.advance else ([], d)).2.inside before (stop :: after)) := by
    intro d point hrest
    cases point with
    | false => rfl
    | true =>
        rw [if_pos rfl, advance_inside (hrest rfl), decimalRun_inside hstop]
        rfl
  unfold readDecimalNumeral
  rw [decimalRun_inside hstop]
  dsimp only
  rw [hpoint, hfraction]
  · generalize (if ((decimalRun c).2.head? == some '.') then decimalRun (decimalRun c).2.advance
      else ([], (decimalRun c).2)) = fraction
    have hletter : ∀ ch : Char, ch.isAlpha →
        ((fraction.2.inside before (stop :: after)).head? = some ch ↔ fraction.2.head? = some ch) :=
      fun ch hch => head?_inside (hstop.ne_letter hch)
    dsimp only
    by_cases hexponent : fraction.2.head? = some 'e' ∨ fraction.2.head? = some 'E'
    · have hrest : fraction.2.rest ≠ [] := hexponent.elim ne_nil_of_head? ne_nil_of_head?
      rw [if_pos hexponent, if_pos (by rwa [hletter 'e' rfl, hletter 'E' rfl]),
        advance_inside hrest, readExponent?_inside hstop]
      cases readExponent? fraction.2.advance with
      | none => rfl
      | some r => rfl
    · rw [if_neg hexponent, if_neg (by rwa [hletter 'e' rfl, hletter 'E' rfl])]
      rfl
  · intro hsome
    exact ne_nil_of_head? (beq_iff_eq.mp hsome)

/-- Two characters decide the radix. -/
theorem radixOf?_cons (first second : Char) (rest rest' : List Char) :
    radixOf? (first :: second :: rest) = radixOf? (first :: second :: rest') := by
  unfold radixOf?
  split <;> split <;> simp_all

theorem radixOf?_inside (hstop : Stops stop) (chars : List Char) :
    radixOf? (chars ++ stop :: after) = radixOf? chars := by
  rcases chars with _ | ⟨first, _ | ⟨second, rest⟩⟩
  · rcases hstop with rfl | rfl | rfl <;> rfl
  · rcases hstop with rfl | rfl | rfl <;> simp [radixOf?]
  · exact radixOf?_cons first second _ _

theorem two_le_length_of_radixOf? {chars : List Char} {radix : Nat}
    (h : radixOf? chars = some radix) :
    ∃ first second rest, chars = first :: second :: rest := by
  rcases chars with _ | ⟨first, _ | ⟨second, rest⟩⟩
  · cases h
  · simp [radixOf?] at h
  · exact ⟨first, second, rest, rfl⟩

theorem readRadixNumeral_inside (hstop : Stops stop) {radix : Nat}
    (h : radixOf? c.rest = some radix) :
    readRadixNumeral radix (c.inside before (stop :: after)) =
      (readRadixNumeral radix c).inside before (stop :: after) := by
  rcases two_le_length_of_radixOf? h with ⟨first, second, rest, hrest⟩
  have hskip : (c.inside before (stop :: after)).skip 2 =
      (c.skip 2).inside before (stop :: after) := by
    simp [skip, advance, Cursor.inside, hrest, Nat.add_right_comm]
  unfold readRadixNumeral
  rw [hskip, radixRun_inside hstop]
  dsimp only
  split
  · rfl
  · rfl

theorem readLeadingZero_inside (hstop : Stops stop) :
    readLeadingZero (c.inside before (stop :: after)) =
      (readLeadingZero c).inside before (stop :: after) := by
  unfold readLeadingZero
  dsimp only
  rw [dropWhile_inside hstop.isDigit, (c.reaches_dropWhile Char.isDigit).charsTo_inside]
  rfl

theorem leadingZero_inside (hstop : Stops stop) :
    ((c.inside before (stop :: after)).head? = some '0' ∧
      (c.inside before (stop :: after)).advance.head?.any Char.isDigit) ↔
      (c.head? = some '0' ∧ c.advance.head?.any Char.isDigit) := by
  have hzero : '0' ≠ stop := by rcases hstop with rfl | rfl | rfl <;> decide
  rw [head?_inside hzero]
  apply and_congr_right
  intro hhead
  rw [advance_inside (ne_nil_of_head? hhead), any_head?_inside hstop.isDigit]

/-- A decimal integer stands here and runs to the end of the text. -/
structure EndsInWhole (c : Cursor) : Prop where
  radix : radixOf? c.rest = none
  leading : ¬ (c.head? = some '0' ∧ c.advance.head?.any Char.isDigit)
  run : (decimalRun c).2.rest = []

theorem readNumeral_inside (hstop : Stops stop) (hwhole : stop = '.' → ¬ EndsInWhole c) :
    readNumeral (c.inside before (stop :: after)) =
      (readNumeral c).inside before (stop :: after) := by
  have hradix : radixOf? (c.inside before (stop :: after)).rest = radixOf? c.rest :=
    radixOf?_inside hstop c.rest
  have hleading := @leadingZero_inside c before after stop hstop
  unfold readNumeral
  rw [hradix]
  cases hc : radixOf? c.rest with
  | some radix => exact readRadixNumeral_inside hstop hc
  | none =>
      dsimp only
      by_cases hzero : c.head? = some '0' ∧ c.advance.head?.any Char.isDigit
      · rw [if_pos hzero, if_pos (hleading.mpr hzero), readLeadingZero_inside hstop]
      · rw [if_neg hzero, if_neg (mt hleading.mp hzero), readDecimalNumeral_inside hstop]
        exact fun hdot hrun => hwhole hdot ⟨hc, hzero, hrun⟩

/-!
## Literals
-/

theorem reaches_readExponent? {value : Int} (h : readExponent? c = some (value, d)) :
    c.Reaches d := by
  unfold readExponent? at h
  dsimp only at h
  have hsigned : c.Reaches
      (if (c.head? == some '-' || c.head? == some '+') then c.advance else c) := by
    split
    · exact c.reaches_advance
    · exact .refl c
  generalize (if (c.head? == some '-' || c.head? == some '+') then c.advance else c) = digitsAt
    at h hsigned
  split at h
  · cases h
    exact hsigned.trans (reaches_decimalRun digitsAt)
  · cases h

/-- Where the reading of a numeral ends, with or without success. -/
def NumeralReading.next : NumeralReading → Cursor
  | .value _ _ next => next
  | .digitExpected next => next

theorem decimalRun_reaches (c : Cursor) :
    (decimalRun c).2.Reaches (readDecimalNumeral c).next := by
  unfold readDecimalNumeral
  dsimp only
  have hfraction : (decimalRun c).2.Reaches (if ((decimalRun c).2.head? == some '.') then
      decimalRun (decimalRun c).2.advance else ([], (decimalRun c).2)).2 := by
    split
    · exact (reaches_advance _).trans (reaches_decimalRun _)
    · exact .refl _
  generalize (if ((decimalRun c).2.head? == some '.') then decimalRun (decimalRun c).2.advance
    else ([], (decimalRun c).2)) = fraction at hfraction ⊢
  split
  · cases hexponent : readExponent? fraction.2.advance with
    | none => exact hfraction
    | some r =>
        exact hfraction.trans ((reaches_advance _).trans (reaches_readExponent? hexponent))
  · exact hfraction

theorem reaches_readNumeral (c : Cursor) : c.Reaches (readNumeral c).next := by
  unfold readNumeral
  split
  · unfold readRadixNumeral
    dsimp only
    split <;> exact (reaches_skip 2 c).trans (reaches_radixRun _ _)
  · split
    · exact c.reaches_dropWhile Char.isDigit
    · exact (reaches_decimalRun c).trans (decimalRun_reaches c)

/-- How a reading changes in a longer text: not at all, unless it was malformed. -/
inductive Reading.Stays (before : Nat) (after : List Char) : Reading → Reading → Prop
  | complete {lexeme : Lexeme} {next : Cursor} (hknown : lexeme.kind ≠ .unknown) :
      Stays before after (.ok lexeme next) (.ok lexeme (next.inside before after))
  | malformed {r longer : Reading} (hkind : r.lexeme.kind = .unknown)
      (herror : r.error.isSome = true) (hkind' : longer.lexeme.kind = .unknown)
      (herror' : longer.error.isSome = true) : Stays before after r longer

theorem readNumber_stays (hstop : Stops stop) (hwhole : stop = '.' → ¬ EndsInWhole c) :
    (readNumber c).Stays before (stop :: after)
      (readNumber (c.inside before (stop :: after))) := by
  unfold readNumber
  rw [readNumeral_inside hstop hwhole]
  cases hread : readNumeral c with
  | digitExpected next => exact .malformed rfl rfl rfl rfl
  | value number integer behind =>
      dsimp only [NumeralReading.inside]
      have hbig : ((behind.inside before (stop :: after)).head? == some 'n') =
          (behind.head? == some 'n') := head?_beq_inside (hstop.ne_letter rfl)
      have hbehind : c.Reaches (if (integer && behind.head? == some 'n') then behind.advance
          else behind) := by
        have hnumeral := reaches_readNumeral c
        rw [hread] at hnumeral
        apply hnumeral.trans
        split
        · exact behind.reaches_advance
        · exact .refl behind
      have hfollows : (Text.isIdentifierStart stop || stop.isDigit) = false := by
        rw [hstop.isIdentifierStart, hstop.isDigit]
        rfl
      rw [hbig, advance_inside_of]
      · generalize (if (integer && behind.head? == some 'n') then behind.advance else behind) = next
          at hbehind ⊢
        rw [any_head?_inside hfollows, hbehind.textTo_inside]
        split
        · exact .malformed rfl rfl rfl rfl
        · refine .complete ?_
          dsimp only
          split <;> nofun
      · intro hcondition
        exact ne_nil_of_head? (beq_iff_eq.mp ((Bool.and_eq_true _ _).mp hcondition).2)

/-- A numeral that is read to a certain place is read to that place in a longer text. -/
theorem readNumber_inside (hstop : Stops stop) (hwhole : stop = '.' → ¬ EndsInWhole c)
    {lexeme : Lexeme} (h : readNumber c = .ok lexeme d) :
    readNumber (c.inside before (stop :: after)) =
      .ok lexeme (d.inside before (stop :: after)) := by
  have hstays := @readNumber_stays c before after stop hstop hwhole
  rw [h] at hstays
  generalize readNumber (c.inside before (stop :: after)) = longer at hstays
  cases hstays with
  | complete => rfl
  | malformed hkind herror => cases herror

/-!
## Decimal integers in front of a dot
-/

theorem reaches_readNumber (c : Cursor) : (readNumeral c).next.Reaches (readNumber c).next := by
  unfold readNumber
  cases readNumeral c with
  | digitExpected next => exact .refl next
  | value number integer behind =>
      dsimp only [NumeralReading.next]
      have hbehind : behind.Reaches (if (integer && behind.head? == some 'n') then behind.advance
          else behind) := by
        split
        · exact behind.reaches_advance
        · exact .refl behind
      generalize (if (integer && behind.head? == some 'n') then behind.advance else behind) = next
        at hbehind ⊢
      split
      · exact hbehind
      · exact hbehind

theorem reaches_of_point (h : (decimalRun c).2.head? = some '.') :
    (decimalRun c).2.advance.Reaches (readDecimalNumeral c).next := by
  unfold readDecimalNumeral
  dsimp only
  rw [if_pos (beq_iff_eq.mpr h)]
  have hfraction := reaches_decimalRun (decimalRun c).2.advance
  generalize decimalRun (decimalRun c).2.advance = fraction at hfraction ⊢
  split
  · cases hexponent : readExponent? fraction.2.advance with
    | none => exact hfraction
    | some r =>
        exact hfraction.trans ((reaches_advance _).trans (reaches_readExponent? hexponent))
  · exact hfraction

/-- A decimal integer takes the dot behind it. -/
theorem length_readNumber_lt (h : EndsInWhole c) :
    (readNumber (c.inside before ('.' :: after))).next.rest.length < ('.' :: after).length := by
  have hdot : Stops '.' := Or.inl rfl
  have hnumeral : readNumeral (c.inside before ('.' :: after)) =
      readDecimalNumeral (c.inside before ('.' :: after)) := by
    have hradix : radixOf? (c.inside before ('.' :: after)).rest = none :=
      (radixOf?_inside hdot c.rest).trans h.radix
    unfold readNumeral
    rw [hradix]
    dsimp only
    rw [if_neg (mt (leadingZero_inside hdot).mp h.leading)]
  have hrun : (decimalRun (c.inside before ('.' :: after))).2 =
      (decimalRun c).2.inside before ('.' :: after) := by
    rw [decimalRun_inside hdot]
  have hrest : (decimalRun (c.inside before ('.' :: after))).2.rest = '.' :: after := by
    rw [hrun, Cursor.inside, h.run]
    rfl
  have hpoint := reaches_of_point (congrArg List.head? hrest)
  rw [← hnumeral] at hpoint
  have hadvance : (decimalRun (c.inside before ('.' :: after))).2.advance.rest = after := by
    simp [advance, hrest]
  have hle := (hpoint.trans (reaches_readNumber _)).length_le
  rw [hadvance] at hle
  exact Nat.lt_succ_of_le hle

theorem EndsInWhole.forall_mem (h : EndsInWhole c) : ∀ ch ∈ c.rest, ch.isDigit ∨ ch = '_' := by
  rcases spans_decimalRun c with ⟨w, hw, hall⟩
  rw [hw.rest, h.run, List.append_nil]
  exact hall

theorem head?_decimalRunFrom (reversed chars : List Char) (offset : Nat) :
    (decimalRunFrom reversed chars offset).2.head?.any Char.isDigit = false := by
  induction chars generalizing reversed offset with
  | nil => rfl
  | cons ch rest ih =>
      rw [decimalRunFrom]
      split
      · exact ih _ _
      · split
        · exact ih _ _
        · simpa [head?] using ‹¬ ch.isDigit = true›

theorem head?_dropWhileFrom (p : Char → Bool) (chars : List Char) (offset : Nat) :
    (dropWhileFrom p chars offset).head?.any p = false := by
  induction chars generalizing offset with
  | nil => rfl
  | cons ch rest ih =>
      rw [dropWhileFrom]
      split
      · exact ih _
      · simpa [head?] using ‹¬ p ch = true›

/-- A separator that is left over is reported as a name behind the number. -/
theorem not_separator_behind {number : Float} {integer : Bool} {behind : Cursor} {lexeme : Lexeme}
    (hread : readNumeral c = .value number integer behind) (h : readNumber c = .ok lexeme d) :
    behind.head? ≠ some '_' := by
  intro hhead
  unfold readNumber at h
  rw [hread] at h
  have hbig : (behind.head? == some 'n') = false := by
    rw [hhead]
    rfl
  dsimp only at h
  rw [hbig, Bool.and_false, if_neg Bool.false_ne_true, hhead] at h
  cases h

/-- Among digits and separators only a separator is no digit. -/
theorem head?_eq_separator (hreach : c.Reaches d) (hall : ∀ ch ∈ c.rest, ch.isDigit ∨ ch = '_')
    (hne : d.rest ≠ []) (hdigit : d.head?.any Char.isDigit = false) : d.head? = some '_' := by
  rcases hreach with ⟨w, hw⟩
  obtain ⟨ch, rest, hrest⟩ := List.exists_cons_of_ne_nil hne
  have hhead : d.head? = some ch := by rw [head?, hrest, List.head?_cons]
  rw [hhead] at hdigit ⊢
  rcases hall ch (by simp [hw.rest, hrest]) with hch | hch
  · rw [Option.any_some, hch] at hdigit
    cases hdigit
  · rw [hch]

theorem radixOf?_eq_none {chars : List Char} (hall : ∀ ch ∈ chars, ch.isDigit ∨ ch = '_') :
    radixOf? chars = none := by
  unfold radixOf?
  split <;> simp_all

theorem mem_dropWhileFrom {p : Char → Bool} {ch : Char} (hch : p ch = false) {chars : List Char}
    (hmem : ch ∈ chars) (offset : Nat) : ch ∈ (dropWhileFrom p chars offset).rest := by
  induction chars generalizing offset with
  | nil => cases hmem
  | cons first rest ih =>
      rw [dropWhileFrom]
      split
      · rcases List.mem_cons.mp hmem with rfl | hmem
        · rw [hch] at *
          contradiction
        · exact ih hmem _
      · exact hmem

/-- A numeral of digits and separators is a decimal integer. -/
theorem endsInWhole_of_forall_mem {lexeme : Lexeme} (h : readNumber c = .ok lexeme d)
    (hall : ∀ ch ∈ c.rest, ch.isDigit ∨ ch = '_') (hseparator : '_' ∈ c.rest) :
    EndsInWhole c := by
  have hradix : radixOf? c.rest = none := radixOf?_eq_none hall
  have hleading : ¬ (c.head? = some '0' ∧ c.advance.head?.any Char.isDigit) := by
    intro hzero
    have hread : readNumeral c = readLeadingZero c := by
      unfold readNumeral
      rw [hradix]
      exact if_pos hzero
    have hmem : '_' ∈ (c.dropWhile Char.isDigit).rest := mem_dropWhileFrom rfl hseparator _
    exact not_separator_behind hread h (head?_eq_separator (c.reaches_dropWhile Char.isDigit) hall
      (List.ne_nil_of_mem hmem) (head?_dropWhileFrom Char.isDigit c.rest c.offset))
  refine ⟨hradix, hleading, Classical.byContradiction fun hrest => ?_⟩
  have hhead := head?_eq_separator (reaches_decimalRun c) hall hrest
    (head?_decimalRunFrom [] c.rest c.offset)
  have hread : ∃ number integer, readNumeral c = .value number integer (decimalRun c).2 := by
    unfold readNumeral readDecimalNumeral
    rw [hradix]
    dsimp only
    have hpoint : ((decimalRun c).2.head? == some '.') = false := by
      rw [hhead]
      rfl
    rw [if_neg hleading, hpoint, if_neg Bool.false_ne_true, if_neg]
    · exact ⟨_, _, rfl⟩
    · simp [hhead]
  rcases hread with ⟨number, integer, hread⟩
  exact not_separator_behind hread h hhead

/-!
## Scanning numbers

A scanner that stands before a numeric literal reads it as one, without skipping anything.
-/

/-- What a scanner finds at the start of a numeric literal. -/
def StartsNumeral (chars : List Char) : Prop :=
  chars.head?.any Char.isDigit ∨ chars.head? = some '.' ∧ chars.tail.head?.any Char.isDigit

/-- What holds of each of the ten digits holds of every digit. -/
theorem forall_isDigit {p : Char → Bool} (hp : ∀ n < 10, p (Char.ofNat (48 + n))) {ch : Char}
    (h : ch.isDigit) : p ch := by
  simp only [Char.isDigit, ge_iff_le, Bool.and_eq_true, decide_eq_true_eq] at h
  have hlow : 48 ≤ ch.toNat := h.1
  have hhigh : ch.toNat ≤ 57 := h.2
  have hch : ch = Char.ofNat (48 + (ch.toNat - 48)) := by
    rw [Nat.add_sub_cancel' hlow, Char.ofNat_toNat]
  rw [hch]
  exact hp _ (by omega)

theorem StartsNumeral.first {chars : List Char} (h : StartsNumeral chars) :
    ∃ ch rest, chars = ch :: rest ∧ (ch.isDigit ∨ ch = '.' ∧ rest.head?.any Char.isDigit) := by
  cases chars with
  | nil => rcases h with h | ⟨h, _⟩ <;> cases h
  | cons ch rest => exact ⟨ch, rest, rfl, by simpa [StartsNumeral] using h⟩

theorem skip_of_startsNumeral {chars : List Char} (h : StartsNumeral chars) (lineBreak : Bool)
    (offset : Nat) :
    Gap.skip .between lineBreak chars offset = .token ⟨chars, offset⟩ lineBreak := by
  rcases h.first with ⟨ch, rest, rfl, hch⟩
  have hplain : (ch != '/' && ch != '#' && !Text.isLineBreak ch && !Text.isBlank ch) = true := by
    rcases hch with hdigit | ⟨rfl, _⟩
    · exact @forall_isDigit
        (fun ch => ch != '/' && ch != '#' && !Text.isLineBreak ch && !Text.isBlank ch)
        (by decide) ch hdigit
    · decide
  simp only [Bool.and_eq_true, bne_iff_ne, Bool.not_eq_true'] at hplain
  rcases hplain with ⟨⟨⟨hslash, hhash⟩, hbreak⟩, hblank⟩
  unfold Gap.skip
  split <;> simp_all

theorem readToken_of_startsNumeral {chars : List Char} (h : StartsNumeral chars)
    (depths : List Nat) (offset : Nat) :
    readToken depths ⟨chars, offset⟩ = readNumber ⟨chars, offset⟩ := by
  rcases h.first with ⟨ch, rest, rfl, hch⟩
  have hplain : (ch != '"' && ch != '\'' && ch != '\x60') = true := by
    rcases hch with hdigit | ⟨rfl, _⟩
    · exact @forall_isDigit (fun ch => ch != '"' && ch != '\'' && ch != '\x60')
        (by decide) ch hdigit
    · decide
  simp only [Bool.and_eq_true, bne_iff_ne] at hplain
  rcases hplain with ⟨⟨hdouble, hsingle⟩, htemplate⟩
  have hnumber : ch.isDigit ∨ ch = '.' ∧ rest.head?.any Char.isDigit := hch
  simp [readToken, hdouble, hsingle, htemplate, hnumber]

theorem StartsNumeral.append {chars : List Char} (h : StartsNumeral chars) (after : List Char) :
    StartsNumeral (chars ++ after) := by
  rcases h.first with ⟨ch, rest, rfl, hdigit | ⟨hdot, hrest⟩⟩
  · exact Or.inl hdigit
  · cases rest with
    | nil => cases hrest
    | cons second rest => exact Or.inr ⟨congrArg some hdot, hrest⟩

namespace Scanner

theorem scan_of_startsNumeral {s : Scanner} (h : StartsNumeral s.token.next.rest) :
    s.scan.token.toLexeme = (readNumber s.token.next).lexeme ∧
      s.scan.token.next = (readNumber s.token.next).next := by
  unfold scan
  rw [skip_of_startsNumeral h]
  dsimp only
  rw [readToken_of_startsNumeral h]
  exact ⟨rfl, rfl⟩

theorem scan_openParen {s : Scanner} {rest : List Char} (h : s.token.next.rest = '(' :: rest) :
    s.scan.token.next = ⟨rest, s.token.next.offset + 1⟩ := by
  have hskip : Gap.skip .between false ('(' :: rest) s.token.next.offset =
      .token ⟨'(' :: rest, s.token.next.offset⟩ false := rfl
  have hread : readToken s.depths ⟨'(' :: rest, s.token.next.offset⟩ =
      .ok { kind := .mark .openParen } ⟨rest, s.token.next.offset + 1⟩ := by
    rfl
  unfold scan
  rw [h, hskip]
  dsimp only
  rw [hread]
  rfl

end Scanner
end Untangle
