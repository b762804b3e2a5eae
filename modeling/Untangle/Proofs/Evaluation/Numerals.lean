import Untangle.Evaluation.Value
import Untangle.Proofs.Number.Negation
import Untangle.Proofs.Token.NumeralGrammar

/-!
# Texts that are numbers

ECMAScript has a grammar for the texts that a conversion reads as numbers, and drops its white space
and line terminators around them first. The texts that are read here are those of the grammar. The
next line character of Unicode is dropped with the rest, though it is not among the characters that
the language names.
-/

namespace Untangle
namespace Numeral

open Text Number

/-!
## The grammar
-/

/-- At least one digit. -/
def Digits (p : Char → Bool) (cs : List Char) : Prop :=
  cs ≠ [] ∧ ∀ c ∈ cs, p c

def signs : List (List Char) :=
  [[], ['+'], ['-']]

/-- An exponent, which may be missing. -/
inductive Scale : List Char → Prop
  | absent : Scale []
  | written {letter sign ds} (hletter : letter ∈ ['e', 'E']) (hsign : sign ∈ signs)
      (hds : Digits Char.isDigit ds) : Scale (letter :: (sign ++ ds))

inductive Unsigned : List Char → Prop
  | whole {w e} (hw : Digits Char.isDigit w) (he : Scale e) : Unsigned (w ++ e)
  | point {w f e} (hw : Digits Char.isDigit w) (hf : f = [] ∨ Digits Char.isDigit f)
      (he : Scale e) : Unsigned (w ++ '.' :: (f ++ e))
  | fraction {f e} (hf : Digits Char.isDigit f) (he : Scale e) : Unsigned ('.' :: (f ++ e))

/-- A string numeric literal of the language. -/
inductive Literal : List Char → Prop
  | infinity {sign} (hsign : sign ∈ signs) : Literal (sign ++ "Infinity".toList)
  | decimal {sign cs} (hsign : sign ∈ signs) (hcs : Unsigned cs) : Literal (sign ++ cs)
  | radix {letter radix ds} (hletter : (letter, radix) ∈ radixLetters)
      (hds : Digits (isDigitOf radix) ds) : Literal ('0' :: letter :: ds)

/-!
## Runs of digits
-/

variable {cs ds w f e rest : List Char} {c : Char}

theorem mem_signs_iff {sign : List Char} :
    sign ∈ signs ↔ sign = [] ∨ sign = ['+'] ∨ sign = ['-'] := by
  simp [signs]

theorem takeWhile_run (hds : ∀ c ∈ ds, c.isDigit) (hrest : ∀ c ∈ rest.head?, c.isDigit = false) :
    (ds ++ rest).takeWhile Char.isDigit = ds := by
  rw [List.takeWhile_append_of_pos hds]
  cases rest with
  | nil => rw [List.takeWhile_nil, List.append_nil]
  | cons c rest => rw [List.takeWhile_cons_of_neg (by simp [hrest c rfl]), List.append_nil]

theorem dropWhile_run (hds : ∀ c ∈ ds, c.isDigit) (hrest : ∀ c ∈ rest.head?, c.isDigit = false) :
    (ds ++ rest).dropWhile Char.isDigit = rest := by
  rw [List.dropWhile_append_of_pos hds]
  cases rest with
  | nil => rfl
  | cons c rest => rw [List.dropWhile_cons_of_neg (by simp [hrest c rfl])]

/-!
## Signs
-/

def dropSign : List Char → List Char
  | '-' :: rest => rest
  | '+' :: rest => rest
  | rest => rest

theorem dropSign_of_no_sign (h : ∀ c ∈ cs.head?, c ≠ '-' ∧ c ≠ '+') : dropSign cs = cs := by
  unfold dropSign
  split
  · exact absurd rfl (h '-' rfl).1
  · exact absurd rfl (h '+' rfl).2
  · rfl

/-- A text that has no sign of its own may take one. -/
theorem dropSign_iff {p : List Char → Prop}
    (hp : ∀ cs, p cs → ∀ c ∈ cs.head?, c ≠ '-' ∧ c ≠ '+') :
    p (dropSign cs) ↔ ∃ sign ∈ signs, ∃ rest, cs = sign ++ rest ∧ p rest := by
  constructor
  · intro h
    unfold dropSign at h
    split at h
    · exact ⟨['-'], by simp [signs], _, rfl, h⟩
    · exact ⟨['+'], by simp [signs], _, rfl, h⟩
    · exact ⟨[], by simp [signs], _, rfl, h⟩
  · rintro ⟨sign, hsign, rest, rfl, h⟩
    simp only [signs, List.mem_cons, List.not_mem_nil, or_false] at hsign
    rcases hsign with rfl | rfl | rfl
    · rw [List.nil_append, dropSign_of_no_sign (hp rest h)]
      exact h
    · exact h
    · exact h

theorem Digits.head {p : Char → Bool} (h : Digits p cs) : ∀ c ∈ cs.head?, p c :=
  fun c hc => h.2 c (List.mem_of_mem_head? hc)

theorem Digits.no_sign (h : Digits Char.isDigit cs) : ∀ c ∈ cs.head?, c ≠ '-' ∧ c ≠ '+' := by
  rintro c hc
  constructor <;> rintro rfl <;> exact absurd (h.head _ hc) (by decide)

theorem Unsigned.no_sign (h : Unsigned cs) : ∀ c ∈ cs.head?, c ≠ '-' ∧ c ≠ '+' := by
  have happend : ∀ {w rest}, Digits Char.isDigit w →
      ∀ c ∈ (w ++ rest).head?, c ≠ '-' ∧ c ≠ '+' := by
    rintro w rest hw c hc
    rw [List.head?_append_of_ne_nil _ hw.1] at hc
    exact hw.no_sign c hc
  cases h with
  | whole hw he => exact happend hw
  | point hw hf he => exact happend hw
  | fraction hf he =>
      rintro c ⟨⟩
      decide

/-!
## Decimal numerals
-/

theorem Scale.head (h : Scale e) : ∀ c ∈ e.head?, c.isDigit = false ∧ c ≠ '.' := by
  cases h with
  | absent => exact nofun
  | @written letter sign ds hletter hsign hds =>
      rintro c ⟨⟩
      simp only [List.mem_cons, List.not_mem_nil, or_false] at hletter
      rcases hletter with rfl | rfl <;> decide

theorem isSome_readExponent?_cons {letter : Char} :
    (Decimal.readExponent? (letter :: cs)).isSome ↔
      letter ∈ ['e', 'E'] ∧ Digits Char.isDigit (dropSign cs) := by
  simp only [Decimal.readExponent?, List.mem_cons, List.not_mem_nil, or_false]
  split
  case isTrue hletter =>
    rw [and_iff_right hletter]
    unfold dropSign Digits
    split <;> dsimp only <;> split <;> simp_all
  case isFalse hletter => simp [hletter]

theorem isSome_readExponent?_iff : (Decimal.readExponent? e).isSome ↔ Scale e := by
  cases e with
  | nil => exact iff_of_true rfl .absent
  | cons letter cs =>
      rw [isSome_readExponent?_cons, dropSign_iff fun _ => Digits.no_sign]
      constructor
      · rintro ⟨hletter, sign, hsign, ds, rfl, hds⟩
        exact .written hletter hsign hds
      · rintro (_ | ⟨hletter, hsign, hds⟩)
        exact ⟨hletter, _, hsign, _, rfl, hds⟩

/-- The fraction behind a point, if there is one, and what follows it. -/
def splitPoint : List Char → List Char × List Char
  | '.' :: rest => (rest.takeWhile Char.isDigit, rest.dropWhile Char.isDigit)
  | rest => ([], rest)

theorem splitPoint_cases (rest : List Char) :
    (∃ after, rest = '.' :: after) ∨ splitPoint rest = ([], rest) := by
  unfold splitPoint
  split
  · exact .inl ⟨_, rfl⟩
  · exact .inr rfl

theorem splitPoint_of_scale (he : Scale e) : splitPoint e = ([], e) := by
  unfold splitPoint
  split
  · exact absurd rfl (he.head '.' rfl).2
  · rfl

theorem splitPoint_point (hf : ∀ c ∈ f, c.isDigit) (he : Scale e) :
    splitPoint ('.' :: (f ++ e)) = (f, e) := by
  have hhead : ∀ c ∈ e.head?, c.isDigit = false := fun c hc => (he.head c hc).1
  rw [splitPoint, takeWhile_run hf hhead, dropWhile_run hf hhead]

theorem isSome_ofDecimal?_split : (ofDecimal? cs).isSome ↔
    (cs.takeWhile Char.isDigit ≠ [] ∨ (splitPoint (cs.dropWhile Char.isDigit)).1 ≠ []) ∧
      Scale (splitPoint (cs.dropWhile Char.isDigit)).2 := by
  have hread : Decimal.read? cs =
      if cs.takeWhile Char.isDigit = [] ∧ (splitPoint (cs.dropWhile Char.isDigit)).1 = [] then none
      else (Decimal.readExponent? (splitPoint (cs.dropWhile Char.isDigit)).2).map fun exponent =>
        { digits := cs.takeWhile Char.isDigit ++ (splitPoint (cs.dropWhile Char.isDigit)).1,
          exponent := exponent - (splitPoint (cs.dropWhile Char.isDigit)).1.length } := rfl
  rw [ofDecimal?, Option.isSome_map, hread, ← isSome_readExponent?_iff, ← not_and_or]
  split
  case isTrue hnone => exact iff_of_false Bool.false_ne_true fun h => h.1 hnone
  case isFalse hsome => rw [and_iff_right hsome, Option.isSome_map]

theorem isSome_ofDecimal? (h : Unsigned cs) : (ofDecimal? cs).isSome := by
  rw [isSome_ofDecimal?_split]
  cases h with
  | @whole w e hw he =>
      have hhead : ∀ c ∈ e.head?, c.isDigit = false := fun c hc => (he.head c hc).1
      rw [takeWhile_run hw.2 hhead, dropWhile_run hw.2 hhead, splitPoint_of_scale he]
      exact ⟨.inl hw.1, he⟩
  | @point w f e hw hf he =>
      have hf : ∀ c ∈ f, c.isDigit := by
        rcases hf with rfl | hf
        · nofun
        · exact hf.2
      have hhead : ∀ c ∈ ('.' :: (f ++ e)).head?, c.isDigit = false := by
        rintro c ⟨⟩
        rfl
      rw [takeWhile_run hw.2 hhead, dropWhile_run hw.2 hhead, splitPoint_point hf he]
      exact ⟨.inl hw.1, he⟩
  | @fraction f e hf he =>
      have hnone : ('.' :: (f ++ e)).takeWhile Char.isDigit = [] := rfl
      have hdot : ('.' :: (f ++ e)).dropWhile Char.isDigit = '.' :: (f ++ e) := rfl
      rw [hnone, hdot, splitPoint_point hf.2 he]
      exact ⟨.inr hf.1, he⟩

theorem unsigned_of_isSome (h : (ofDecimal? cs).isSome) : Unsigned cs := by
  obtain ⟨hsome, hscale⟩ := isSome_ofDecimal?_split.mp h
  have hw : ∀ c ∈ cs.takeWhile Char.isDigit, c.isDigit := fun _ => List.mem_takeWhile_imp
  have hcs := List.takeWhile_append_dropWhile (p := Char.isDigit) (l := cs)
  generalize cs.takeWhile Char.isDigit = w at hsome hw hcs
  generalize cs.dropWhile Char.isDigit = rest at hsome hscale hcs
  subst hcs
  rcases splitPoint_cases rest with ⟨after, rfl⟩ | hnone
  · have hf : ∀ c ∈ after.takeWhile Char.isDigit, c.isDigit := fun _ => List.mem_takeWhile_imp
    have hafter := List.takeWhile_append_dropWhile (p := Char.isDigit) (l := after)
    rw [splitPoint] at hsome hscale
    by_cases hempty : w = []
    · rw [hempty, List.nil_append, ← hafter]
      exact .fraction ⟨hsome.resolve_left (not_not_intro hempty), hf⟩ hscale
    · rw [← hafter]
      refine .point ⟨hempty, hw⟩ ?_ hscale
      exact or_iff_not_imp_left.mpr fun hne => ⟨hne, hf⟩
  · rw [hnone] at hsome hscale
    exact .whole ⟨hsome.resolve_right (not_not_intro rfl), hw⟩ hscale

theorem isSome_ofDecimal?_iff : (ofDecimal? cs).isSome ↔ Unsigned cs :=
  ⟨unsigned_of_isSome, isSome_ofDecimal?⟩

theorem isSome_ofSignedDecimal?_iff :
    (ofSignedDecimal? cs).isSome ↔ ∃ sign ∈ signs, ∃ rest, cs = sign ++ rest ∧ Unsigned rest := by
  rw [← dropSign_iff fun _ => Unsigned.no_sign, ← isSome_ofDecimal?_iff]
  unfold ofSignedDecimal? dropSign
  split <;> simp

/-!
## Numerals with a radix
-/

theorem isNaN_getD {x? : Option Float} (h : ∀ x, x? = some x → x.isNaN = false) :
    (x?.getD (0 / 0)).isNaN = false ↔ x?.isSome := by
  cases x? with
  | none => exact iff_of_false (by decide) Bool.false_ne_true
  | some x => exact iff_of_true (h x rfl) rfl

section Radix

variable {letter : Char} {radix : ℕ}

theorem isSome_digitValues :
    (ds.mapM (digitValue? radix)).isSome ↔ ∀ d ∈ ds, isDigitOf radix d := by
  induction ds with
  | nil => simp
  | cons d ds ih =>
      rw [List.mapM_cons, List.forall_mem_cons, ← ih, isDigitOf]
      cases digitValue? radix d <;> cases ds.mapM (digitValue? radix) <;> simp

theorem lt_of_digitValue? {d : ℕ} (h : digitValue? radix c = some d) : d < radix := by
  unfold digitValue? at h
  exact of_decide_eq_true (Option.filter_eq_some_iff.mp h).2

theorem lt_of_digitValues {values : List ℕ} (h : ds.mapM (digitValue? radix) = some values) :
    ∀ d ∈ values, d < radix := by
  induction ds generalizing values with
  | nil =>
      cases h
      nofun
  | cons d ds ih =>
      rw [List.mapM_cons] at h
      obtain ⟨value, hvalue, h⟩ := Option.bind_eq_some_iff.mp h
      obtain ⟨rest, hrest, h⟩ := Option.bind_eq_some_iff.mp h
      cases h
      exact List.forall_mem_cons.mpr ⟨lt_of_digitValue? hvalue, ih hrest⟩

theorem isNaN_radixNumeral (hradix : radix ∈ [16, 8, 2]) :
    (radixNumeral radix ds).isNaN = false ↔ Digits (isDigitOf radix) ds := by
  have hle : ∀ r ∈ [16, 8, 2], r ≤ 16 := by decide
  cases ds with
  | nil =>
      have hnan : ¬ ((0 : Float) / 0).isNaN = false := by decide
      exact iff_of_false hnan fun h => h.1 rfl
  | cons d ds =>
      have hnumber : ∀ x, ((d :: ds).mapM (digitValue? radix)).map (radixValue radix) = some x →
          x.isNaN = false := by
        intro x hx
        obtain ⟨values, hvalues, rfl⟩ := Option.map_eq_some_iff.mp hx
        exact isNaN_radixValue hradix fun v hv =>
          (lt_of_digitValues hvalues v hv).trans_le (hle radix hradix)
      unfold radixNumeral
      rw [isNaN_getD hnumber, Option.isSome_map, isSome_digitValues, Digits,
        and_iff_right (List.cons_ne_nil d ds)]

end Radix

/-!
## Numerals without a radix
-/

theorem Digits.chars (h : Digits Char.isDigit cs) : ∀ c ∈ cs, isNumeralChar c :=
  fun c hc => by simp [isNumeralChar, h.2 c hc]

theorem chars_of_mem_signs {sign : List Char} (h : sign ∈ signs) : ∀ c ∈ sign, isNumeralChar c := by
  have hall : ∀ sign ∈ signs, ∀ c ∈ sign, isNumeralChar c := by simp [signs, isNumeralChar]
  exact hall sign h

theorem Scale.chars (h : Scale e) : ∀ c ∈ e, isNumeralChar c := by
  cases h with
  | absent => nofun
  | @written letter sign ds hletter hsign hds =>
      have hfirst : ∀ c ∈ ['e', 'E'], isNumeralChar c := by simp [isNumeralChar]
      exact List.forall_mem_cons.mpr ⟨hfirst _ hletter,
        List.forall_mem_append.mpr ⟨chars_of_mem_signs hsign, hds.chars⟩⟩

theorem Unsigned.chars (h : Unsigned cs) : ∀ c ∈ cs, isNumeralChar c := by
  have hpoint : isNumeralChar '.' := rfl
  cases h with
  | whole hw he => exact List.forall_mem_append.mpr ⟨hw.chars, he.chars⟩
  | @point w f e hw hf he =>
      have hf : ∀ c ∈ f, isNumeralChar c := by
        rcases hf with rfl | hf
        · nofun
        · exact hf.chars
      exact List.forall_mem_append.mpr ⟨hw.chars, List.forall_mem_cons.mpr
        ⟨hpoint, List.forall_mem_append.mpr ⟨hf, he.chars⟩⟩⟩
  | fraction hf he =>
      exact List.forall_mem_cons.mpr ⟨hpoint, List.forall_mem_append.mpr ⟨hf.chars, he.chars⟩⟩

theorem isNaN_decimalNumeral :
    (decimalNumeral cs).isNaN = false ↔
      ∃ sign ∈ signs, ∃ rest, cs = sign ++ rest ∧ Unsigned rest := by
  rw [← isSome_ofSignedDecimal?_iff, decimalNumeral]
  split
  case isTrue => exact isNaN_getD fun x => isNaN_of_ofSignedDecimal?
  case isFalse hchars =>
    refine iff_of_false (by decide) fun hsome => hchars (List.all_eq_true.mpr ?_)
    obtain ⟨sign, hsign, rest, rfl, hrest⟩ := isSome_ofSignedDecimal?_iff.mp hsome
    exact List.forall_mem_append.mpr ⟨chars_of_mem_signs hsign, hrest.chars⟩

theorem isNaN_infiniteNumeral {x : Float} (h : infiniteNumeral? cs = some x) :
    x.isNaN = false := by
  unfold infiniteNumeral? at h
  split at h
  · cases h
    decide
  · split at h
    · cases h
      decide
    · cases h

theorem isSome_infiniteNumeral?_iff :
    (infiniteNumeral? cs).isSome ↔ ∃ sign ∈ signs, cs = sign ++ "Infinity".toList := by
  have hplus : "+Infinity".toList = '+' :: "Infinity".toList := rfl
  have hminus : "-Infinity".toList = '-' :: "Infinity".toList := rfl
  rw [infiniteNumeral?, hplus, hminus]
  simp only [signs, List.mem_cons, List.not_mem_nil, or_false, exists_eq_or_imp, exists_eq_left,
    List.nil_append, List.singleton_append]
  split
  case isTrue h => exact iff_of_true rfl (or_assoc.mp (.inl h))
  case isFalse h =>
    rw [← or_assoc, or_iff_right h]
    split
    case isTrue hminus => exact iff_of_true rfl hminus
    case isFalse hminus => exact iff_of_false Bool.false_ne_true hminus

/-- A literal that does not announce a radix. -/
def Plain (cs : List Char) : Prop :=
  (∃ sign ∈ signs, cs = sign ++ "Infinity".toList) ∨
    ∃ sign ∈ signs, ∃ rest, cs = sign ++ rest ∧ Unsigned rest

theorem isNaN_plainNumeral :
    ((infiniteNumeral? cs).getD (decimalNumeral cs)).isNaN = false ↔ Plain cs := by
  rw [Plain, ← isSome_infiniteNumeral?_iff, ← isNaN_decimalNumeral]
  cases h : infiniteNumeral? cs with
  | none => exact (or_iff_right Bool.false_ne_true).symm
  | some x => exact iff_of_true (isNaN_infiniteNumeral h) (.inl rfl)

/-!
## Literals
-/

theorem literal_iff : Literal cs ↔ Plain cs ∨
    ∃ letter radix ds, cs = '0' :: letter :: ds ∧ (letter, radix) ∈ radixLetters ∧
      Digits (isDigitOf radix) ds := by
  constructor
  · rintro (⟨hsign⟩ | ⟨hsign, hcs⟩ | ⟨hletter, hds⟩)
    · exact .inl (.inl ⟨_, hsign, rfl⟩)
    · exact .inl (.inr ⟨_, hsign, _, rfl, hcs⟩)
    · exact .inr ⟨_, _, _, rfl, hletter, hds⟩
  · rintro (hplain | ⟨letter, radix, ds, rfl, hletter, hds⟩)
    · rcases hplain with ⟨sign, hsign, rfl⟩ | ⟨sign, hsign, rest, rfl, hrest⟩
      · exact .infinity hsign
      · exact .decimal hsign hrest
    · exact .radix hletter hds

section Radix

variable {letter : Char} {radix : ℕ}

theorem not_plain_radix (hletter : (letter, radix) ∈ radixLetters) :
    ¬ Plain ('0' :: letter :: ds) := by
  have hother : ∀ q ∈ radixLetters, isNumeralChar q.1 = false := by
    simp [radixLetters, isNumeralChar]
  rintro (⟨sign, hsign, heq⟩ | ⟨sign, hsign, rest, heq, hrest⟩)
  · rcases mem_signs_iff.mp hsign with rfl | rfl | rfl <;> cases heq
  · have hchars : ∀ c ∈ sign ++ rest, isNumeralChar c :=
      List.forall_mem_append.mpr ⟨chars_of_mem_signs hsign, hrest.chars⟩
    rw [← heq] at hchars
    have hbad := hchars letter (List.mem_cons_of_mem _ List.mem_cons_self)
    rw [hother _ hletter] at hbad
    cases hbad

/-- Behind a zero, a letter that announces a radix can be nothing else. -/
theorem literal_radix_iff (hletter : (letter, radix) ∈ radixLetters) :
    Literal ('0' :: letter :: ds) ↔ Digits (isDigitOf radix) ds := by
  have hradix : ∀ q ∈ radixLetters, ∀ q' ∈ radixLetters, q.1 = q'.1 → q.2 = q'.2 := by
    simp [radixLetters]
  rw [literal_iff, or_iff_right (not_plain_radix hletter)]
  constructor
  · rintro ⟨letter', radix', ds', heq, hletter', hds⟩
    obtain ⟨-, rfl, rfl⟩ : '0' = '0' ∧ letter = letter' ∧ ds = ds' := by simpa using heq
    obtain rfl : radix = radix' := hradix _ hletter _ hletter' rfl
    exact hds
  · exact fun hds => ⟨letter, radix, ds, rfl, hletter, hds⟩

end Radix

theorem isNaN_numeral : (numeral cs).isNaN = false ↔ cs = [] ∨ Literal cs := by
  unfold numeral
  split
  case h_1 => exact iff_of_true (by decide) (.inl rfl)
  case h_2 | h_3 | h_4 | h_5 | h_6 | h_7 =>
    rw [or_iff_right (List.cons_ne_nil _ _), isNaN_radixNumeral (by simp)]
    exact (literal_radix_iff (by simp [radixLetters])).symm
  case h_8 hnil hx hX ho hO hb hB =>
    have hradix : ¬ ∃ letter radix ds, cs = '0' :: letter :: ds ∧
        (letter, radix) ∈ radixLetters ∧ Digits (isDigitOf radix) ds := by
      rintro ⟨letter, radix, ds, rfl, hletter, -⟩
      simp only [radixLetters, List.mem_cons, Prod.mk.injEq, List.not_mem_nil, or_false] at hletter
      rcases hletter with ⟨rfl, -⟩ | ⟨rfl, -⟩ | ⟨rfl, -⟩ | ⟨rfl, -⟩ | ⟨rfl, -⟩ | ⟨rfl, -⟩
      · exact hx _ rfl
      · exact hX _ rfl
      · exact ho _ rfl
      · exact hO _ rfl
      · exact hb _ rfl
      · exact hB _ rfl
    rw [isNaN_plainNumeral, or_iff_right hnil, literal_iff, or_iff_left hradix]

/-!
## Padding
-/

/-- Code points of the Unicode category `Space_Separator`. -/
def spaceSeparators : List (Nat × Nat) :=
  [(0x20, 0x20), (0xa0, 0xa0), (0x1680, 0x1680), (0x2000, 0x200a), (0x202f, 0x202f),
   (0x205f, 0x205f), (0x3000, 0x3000)]

/-- White space and line terminators of the language. -/
def isPadding (c : Char) : Bool :=
  ['\t', '\u000b', '\u000c', '\ufeff'].contains c || inRanges spaceSeparators c || isLineBreak c

/-- The padding of the language and the next line character. -/
def isWidePadding (c : Char) : Bool :=
  isPadding c || c == '\u0085'

theorem isWidePadding_eq : isWidePadding = isNumberPadding := by
  funext c
  rw [Bool.eq_iff_iff]
  simp only [isWidePadding, isPadding, isLineBreak, isNumberPadding, isWhiteSpace, inRanges,
    spaceSeparators, whiteSpaceRanges, List.contains_cons, List.contains_nil, List.any_cons,
    List.any_nil, Bool.or_eq_true, Bool.and_eq_true, decide_eq_true_eq, beq_iff_eq, Bool.or_false,
    ← Char.toNat_inj, Char.reduceToNat]
  omega

/-- Visible characters of ASCII. -/
def Graphic (c : Char) : Prop :=
  0x21 ≤ c.toNat ∧ c.toNat ≤ 0x7e

theorem Graphic.isNumberPadding (h : Graphic c) : isNumberPadding c = false := by
  obtain ⟨hlow, hhigh⟩ := h
  simp only [← Bool.not_eq_true, Untangle.isNumberPadding, isWhiteSpace, inRanges, whiteSpaceRanges,
    List.any_cons, List.any_nil, Bool.or_eq_true, Bool.and_eq_true, decide_eq_true_eq, beq_iff_eq,
    Bool.or_false, ← Char.toNat_inj, Char.reduceToNat]
  omega

theorem graphic_of_isNumeralChar (h : isNumeralChar c) : Graphic c := by
  simp only [isNumeralChar, Bool.or_eq_true, isDigit_iff, List.contains_cons, List.contains_nil,
    beq_iff_eq, Bool.or_false, ← Char.toNat_inj, Char.reduceToNat] at h
  unfold Graphic
  omega

theorem graphic_of_isHexDigit (h : isHexDigit c) : Graphic c := by
  have hle : ∀ a b : Char, a ≤ b ↔ a.toNat ≤ b.toNat := fun _ _ => Iff.rfl
  simp only [isHexDigit, Bool.or_eq_true, Bool.and_eq_true, decide_eq_true_eq, isDigit_iff, hle,
    Char.reduceToNat] at h
  unfold Graphic
  omega

theorem Literal.graphic (h : Literal cs) : ∀ c ∈ cs, Graphic c := by
  cases h with
  | infinity hsign =>
      have hall : ∀ c ∈ "Infinity".toList, Graphic c := by simp [Graphic]
      exact List.forall_mem_append.mpr
        ⟨fun c hc => graphic_of_isNumeralChar (chars_of_mem_signs hsign c hc), hall⟩
  | decimal hsign hcs =>
      exact List.forall_mem_append.mpr
        ⟨fun c hc => graphic_of_isNumeralChar (chars_of_mem_signs hsign c hc),
          fun c hc => graphic_of_isNumeralChar (hcs.chars c hc)⟩
  | @radix letter radix ds hletter hds =>
      have hfirst : ∀ q ∈ radixLetters, Graphic q.1 := by simp [radixLetters, Graphic]
      refine List.forall_mem_cons.mpr ⟨graphic_of_isNumeralChar rfl, ?_⟩
      refine List.forall_mem_cons.mpr ⟨hfirst _ hletter, fun c hc => ?_⟩
      exact graphic_of_isHexDigit (isHexDigit_of_isDigitOf (radix_le_of_mem hletter) (hds.2 c hc))

/-!
## Trimming
-/

theorem exists_trim (p : Char → Bool) (cs : List Char) :
    ∃ front back, cs = front ++ (trim p cs ++ back) ∧ (∀ c ∈ front, p c) ∧ ∀ c ∈ back, p c := by
  refine ⟨cs.takeWhile p, ((cs.dropWhile p).reverse.takeWhile p).reverse, ?_,
    fun _ => List.mem_takeWhile_imp, fun c hc => List.mem_takeWhile_imp (List.mem_reverse.mp hc)⟩
  rw [trim, ← List.reverse_append, List.takeWhile_append_dropWhile, List.reverse_reverse,
    List.takeWhile_append_dropWhile]

theorem dropWhile_kept {p : Char → Bool} {body back : List Char} (hne : body ≠ [])
    (hbody : ∀ c ∈ body, p c = false) : (body ++ back).dropWhile p = body ++ back := by
  cases body with
  | nil => exact absurd rfl hne
  | cons c body => exact List.dropWhile_cons_of_neg (by simp [hbody c List.mem_cons_self])

theorem trim_append {p : Char → Bool} {front body back : List Char} (hfront : ∀ c ∈ front, p c)
    (hback : ∀ c ∈ back, p c) (hbody : ∀ c ∈ body, p c = false) :
    trim p (front ++ (body ++ back)) = body := by
  rw [trim, List.dropWhile_append_of_pos hfront]
  by_cases hempty : body = []
  · rw [hempty, List.nil_append, List.dropWhile_eq_nil_iff.mpr hback]
    rfl
  · have hreverse : (body.reverse ++ []).dropWhile p = body.reverse ++ [] :=
      dropWhile_kept (List.reverse_ne_nil_iff.mpr hempty)
        fun c hc => hbody c (List.mem_reverse.mp hc)
    rw [List.append_nil] at hreverse
    rw [dropWhile_kept hempty hbody, List.reverse_append,
      List.dropWhile_append_of_pos fun c hc => hback c (List.mem_reverse.mp hc), hreverse,
      List.reverse_reverse]

theorem trim_wide (h : ∀ c ∈ trim isPadding cs, Graphic c) :
    trim isWidePadding cs = trim isPadding cs := by
  obtain ⟨front, back, hcs, hfront, hback⟩ := exists_trim isPadding cs
  have hwide : ∀ c, isPadding c → isWidePadding c := fun c hc => by simp [isWidePadding, hc]
  conv_lhs => rw [hcs]
  refine trim_append (fun c hc => hwide c (hfront c hc)) (fun c hc => hwide c (hback c hc)) ?_
  rw [isWidePadding_eq]
  exact fun c hc => (h c hc).isNumberPadding

/-!
## Conversion
-/

/-- A text is a number iff nothing or a literal is left of it without its padding, and zero if
nothing is left. -/
def ReadsNumerals (padding : Char → Bool) (text : String) : Prop :=
  ((stringToNumber text).isNaN = false ↔
    trim padding text.toList = [] ∨ Literal (trim padding text.toList)) ∧
  (trim padding text.toList = [] → stringToNumber text = 0)

theorem readsNumerals_wide (text : String) : ReadsNumerals isWidePadding text := by
  rw [ReadsNumerals, stringToNumber, isWidePadding_eq]
  refine ⟨isNaN_numeral, fun hempty => ?_⟩
  rw [hempty]
  rfl

/-- Texts are read as the language reads them, unless a next line character is dropped with the
padding of a text that is then a number. -/
theorem stringToNumber_readsNumerals (text : String) :
    ReadsNumerals isWidePadding text ∧
      (ReadsNumerals isPadding text ↔ (stringToNumber text).isNaN = true ∨
        trim isPadding text.toList = trim isWidePadding text.toList) := by
  refine ⟨readsNumerals_wide text, ?_⟩
  have hwide : trim isPadding text.toList = [] ∨ Literal (trim isPadding text.toList) →
      trim isPadding text.toList = trim isWidePadding text.toList := by
    intro h
    refine (trim_wide ?_).symm
    rcases h with hempty | hliteral
    · rw [hempty]
      nofun
    · exact hliteral.graphic
  have hread := readsNumerals_wide text
  constructor
  · intro h
    cases hnan : (stringToNumber text).isNaN with
    | true => exact .inl rfl
    | false => exact .inr (hwide (h.1.mp hnan))
  · rintro (hnan | heq)
    · have hother : ¬ (trim isPadding text.toList = [] ∨ Literal (trim isPadding text.toList)) := by
        intro h
        rw [hwide h] at h
        rw [hread.1.mpr h] at hnan
        cases hnan
      exact ⟨iff_of_false (by simp only [hnan, Bool.true_eq_false, not_false_eq_true]) hother,
        fun hempty => absurd (.inl hempty) hother⟩
    · rw [ReadsNumerals, heq]
      exact hread

theorem not_readsNumerals_nextLine : ¬ ReadsNumerals isPadding "\u0085" := by
  rw [(stringToNumber_readsNumerals _).2]
  decide +kernel

end Numeral
end Untangle
