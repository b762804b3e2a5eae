import Untangle.Proofs.Token.Numeral
import Untangle.Proofs.Tree.Phrases

/-!
# Scanning words

A printed text is a row of words: names, keywords and punctuators. Blank space may stand before
each, and what comes behind a word must not go on with it. A scanner that stands in front of such
a text finds its words one after another.
-/

namespace Untangle

open Text

/-!
## Words
-/

structure Word where
  kind : TokenKind
  text : String
  /-- The word stands on the line on which the word before it ends. -/
  isAttached : Bool

namespace Word

def name (name : OrdinaryName) : Word :=
  ⟨.identifier, name.text, false⟩

/-- The word for a kind that has one spelling. -/
def of (kind : TokenKind) : Word :=
  ⟨kind, kind.text, false⟩

def mark (p : Punctuator) : Word :=
  .of (.mark p)

def keyword (k : Keyword) : Word :=
  .of (.word k)

def attached (kind : TokenKind) : Word :=
  ⟨kind, kind.text, true⟩

end Word

/-- Dots may start numbers or optional chains, and an arrow makes parameters of what is in front
of it. -/
def Punctuator.isPlain (p : Punctuator) : Bool :=
  !([.dot, .ellipsis, .optionalDot, .arrow].contains p)

/-- The words that printed texts are made of. -/
inductive Word.Proper : Word → Prop
  | name (name : OrdinaryName) : Proper (.name name)
  | keyword (k : Keyword) : Proper (.keyword k)
  | mark {p : Punctuator} (hp : p.isPlain = true) : Proper (.mark p)
  | attached {p : Punctuator} (hp : p.isPlain = true) : Proper (.attached (.mark p))

/-- With this character behind it the punctuator would be read as a longer one, or as the start of
a comment. -/
def Punctuator.goesOn (p : Punctuator) (ch : Char) : Bool :=
  p == .divide && (ch == '/' || ch == '*') ||
    Punctuator.longestFirst.any fun q => (p.text.toList ++ [ch]).isPrefixOf q.text.toList

/-- The character would be read as a part of a name in front of it. -/
def continuesName (ch : Char) : Bool :=
  isIdentifierPart ch || ch == '\\'

def Word.goesOn (w : Word) (ch : Char) : Bool :=
  match w.kind with
  | .mark p => p.goesOn ch
  | _ => continuesName ch

def Word.EndsBefore (w : Word) (rest : List Char) : Prop :=
  ∀ ch ∈ rest.head?, w.goesOn ch = false

/-- The blank space that printed texts have between words. -/
def isGap (ch : Char) : Bool :=
  ch == ' ' || ch == '\n'

/-- The text consists of the words, with blank space before them and at the end. -/
inductive Spells : List Char → List Word → Prop
  | done {gap : List Char} (hgap : gap.all isGap = true) : Spells gap []
  | word {gap rest : List Char} {w : Word} {ws : List Word} (hw : w.Proper)
      (hgap : gap.all isGap = true)
      (hattached : w.isAttached = true → gap.all (· == ' ') = true)
      (hend : w.EndsBefore rest) (hrest : Spells rest ws) :
      Spells (gap ++ w.text.toList ++ rest) (w :: ws)

/-!
## First characters
-/

/-- No blank space and no comment starts here. -/
def StartsWord (chars : List Char) : Prop :=
  ∃ ch rest, chars = ch :: rest ∧ isLineBreak ch = false ∧ isBlank ch = false ∧ ch ≠ '#' ∧
    (ch = '/' → ∀ next ∈ rest.head?, next ≠ '/' ∧ next ≠ '*')

theorem exists_mem_range_of_inRanges {table : List (Nat × Nat)} {ch : Char}
    (h : inRanges table ch = true) :
    ∃ range ∈ table, ch.toNat ∈ List.range' range.1 (range.2 + 1 - range.1) := by
  rcases List.any_eq_true.mp h with ⟨range, hrange, hin⟩
  simp only [Bool.and_eq_true, decide_eq_true_eq] at hin
  exact ⟨range, hrange, List.mem_range'_1.mpr (by omega)⟩

/-- Names start with no blank space. -/
theorem not_blank_of_isIdentifierStart {ch : Char} (h : isIdentifierStart ch = true) :
    isLineBreak ch = false ∧ isBlank ch = false := by
  have hspace : isWhiteSpace ch = false := by
    by_contra hwhite
    rw [Bool.not_eq_false] at hwhite
    rcases exists_mem_range_of_inRanges hwhite with ⟨range, hrange, hmem⟩
    have hno : ∀ range ∈ whiteSpaceRanges, ∀ n ∈ List.range' range.1 (range.2 + 1 - range.1),
        isIdentifierStart (Char.ofNat n) = false := by decide +kernel
    have := hno range hrange ch.toNat hmem
    rw [Char.ofNat_toNat, h] at this
    cases this
  have hne : ∀ other : Char, isIdentifierStart other = false → (ch == other) = false := by
    intro other hother
    rw [beq_eq_false_iff_ne]
    rintro rfl
    cases h.symm.trans hother
  have hbreak : isLineBreak ch = false := by
    simp only [isLineBreak, Bool.or_eq_false_iff]
    exact ⟨⟨⟨hne _ (by decide +kernel), hne _ (by decide +kernel)⟩, hne _ (by decide +kernel)⟩,
      hne _ (by decide +kernel)⟩
  refine ⟨hbreak, ?_⟩
  simp [isBlank, hspace, hne '\ufeff' (by decide +kernel)]

/-!
## Names
-/

theorem continuesName_of_isIdentifierPart {ch : Char} (h : isIdentifierPart ch = true) :
    ch ≠ '\\' := by
  rintro rfl
  exact absurd h (by decide +kernel)

theorem readNameFrom_parts {n : PartialName} {chars rest : List Char} (hn : n.reversed ≠ [])
    (hchars : chars.all isIdentifierPart = true)
    (hrest : ∀ ch ∈ rest.head?, continuesName ch = false) (offset : Nat) :
    ∃ next : Cursor, next.rest = rest ∧ readNameFrom n ⟨chars ++ rest, offset⟩ =
      PartialName.finish ⟨chars.reverse ++ n.reversed, n.escaped⟩ next := by
  induction chars generalizing n offset with
  | nil =>
      refine ⟨⟨rest, offset⟩, rfl, ?_⟩
      cases rest with
      | nil => simp [readNameFrom]
      | cons ch rest =>
          have hends : isIdentifierPart ch = false ∧ ch ≠ '\\' := by
            simpa [continuesName] using hrest ch rfl
          simp [readNameFrom, PartialName.accepts, hn, hends]
  | cons ch chars ih =>
      rw [List.all_cons, Bool.and_eq_true] at hchars
      rcases @ih (n.push ch) (List.cons_ne_nil _ _) hchars.2 (offset + ch.utf8Size) with
        ⟨next, hnext, hread⟩
      refine ⟨next, hnext, ?_⟩
      have haccepts : n.accepts ch = true := by simp [PartialName.accepts, hn, hchars.1]
      have hescape := continuesName_of_isIdentifierPart hchars.1
      rw [List.cons_append, readNameFrom]
      simp only [hescape, if_false, haccepts, if_true]
      rw [Cursor.advance]
      simpa [PartialName.push] using hread

/-- A name is read up to a character that does not go on with it. -/
theorem readName_text {text : String} {rest : List Char} (h : isIdentifierName text = true)
    (hrest : ∀ ch ∈ rest.head?, continuesName ch = false) (offset : Nat) :
    ∃ next : Cursor, next.rest = rest ∧ readName ⟨text.toList ++ rest, offset⟩ =
      PartialName.finish ⟨text.toList.reverse, false⟩ next := by
  unfold isIdentifierName at h
  cases htext : text.toList with
  | nil =>
      rw [htext] at h
      cases h
  | cons first chars =>
      rw [htext] at h
      simp only [Bool.and_eq_true] at h
      have haccepts : PartialName.empty.accepts first = true := by
        simp [PartialName.accepts, PartialName.empty, h.1]
      have hpart : isIdentifierPart first = true := by simp [isIdentifierPart, h.1]
      rcases readNameFrom_parts (n := .push .empty first) (List.cons_ne_nil _ _) h.2 hrest
        (offset + first.utf8Size) with ⟨next, hnext, hread⟩
      refine ⟨next, hnext, ?_⟩
      rw [readName, List.cons_append, readNameFrom]
      simp only [continuesName_of_isIdentifierPart hpart, if_false, haccepts, if_true]
      rw [Cursor.advance]
      simpa [PartialName.push, PartialName.empty] using hread

/-!
## Punctuators
-/

theorem startsWith_iff {w chars : List Char} : startsWith w chars = true ↔ w <+: chars := by
  induction w generalizing chars with
  | nil => simp [startsWith]
  | cons ch w ih =>
      cases chars with
      | nil => simp [startsWith]
      | cons first chars => simp [startsWith, ih, List.cons_prefix_cons]

theorem rest_skip (w rest : List Char) (offset : Nat) :
    (Cursor.skip w.length ⟨w ++ rest, offset⟩).rest = rest := by
  induction w generalizing offset with
  | nil => rfl
  | cons ch w ih => exact ih _

theorem pairwise_longestFirst : Punctuator.longestFirst.Pairwise fun p q =>
    p.text.toList.isPrefixOf q.text.toList = false := by
  decide +kernel

theorem mem_longestFirst (p : Punctuator) : p ∈ Punctuator.longestFirst := by
  cases p <;> decide

theorem not_fits_of_longer {p q : Punctuator} {rest : List Char}
    (hend : ∀ ch ∈ rest.head?, p.goesOn ch = false)
    (hlonger : q.text.toList.isPrefixOf p.text.toList = false) :
    q.fits (p.text.toList ++ rest) = false := by
  by_contra hfits
  rw [Bool.not_eq_false, Punctuator.fits, Bool.and_eq_true, startsWith_iff] at hfits
  rcases List.prefix_or_prefix_of_prefix hfits.1 (List.prefix_append _ _) with hq | ⟨more, hmore⟩
  · exact absurd (List.isPrefixOf_iff_prefix.mpr hq) (by simp [hlonger])
  · cases more with
    | nil =>
        rw [List.append_nil] at hmore
        rw [hmore] at hlonger
        exact Bool.false_ne_true (hlonger.symm.trans
          (List.isPrefixOf_iff_prefix.mpr List.prefix_rfl))
    | cons ch more =>
        have hrest : ch :: more <+: rest := by
          have := hfits.1
          rwa [← hmore, List.prefix_append_right_inj] at this
        rcases hrest with ⟨after, rfl⟩
        have hgoes : p.goesOn ch = true := by
          rw [Punctuator.goesOn, Bool.or_eq_true, List.any_eq_true]
          refine .inr ⟨q, ?_, ?_⟩
          · exact mem_longestFirst q
          · rw [List.isPrefixOf_iff_prefix, ← hmore]
            exact ⟨more, by simp⟩
        exact absurd (hend ch rfl) (by simp [hgoes])

/-- A punctuator is read as itself when nothing behind it goes on with it. -/
theorem readPunctuator_text {p : Punctuator} {rest : List Char} (hp : p.isPlain = true)
    (hend : ∀ ch ∈ rest.head?, p.goesOn ch = false) (offset : Nat) :
    ∃ next : Cursor, next.rest = rest ∧
      readPunctuator ⟨p.text.toList ++ rest, offset⟩ = .ok { kind := .mark p } next := by
  have hfind : Punctuator.longestFirst.find? (·.fits (p.text.toList ++ rest)) = some p := by
    rcases List.append_of_mem (mem_longestFirst p) with ⟨before, behind, hsplit⟩
    have hbefore : ∀ q ∈ before, q.text.toList.isPrefixOf p.text.toList = false := fun q hq =>
      (List.pairwise_append.mp (hsplit ▸ pairwise_longestFirst)).2.2 q hq p List.mem_cons_self
    rw [List.find?_eq_some_iff_append]
    refine ⟨?_, before, behind, hsplit, fun q hq => ?_⟩
    · have hdot : (p == .optionalDot) = false := by
        rw [beq_eq_false_iff_ne]
        rintro rfl
        cases hp
      simp [Punctuator.fits, startsWith_iff, hdot]
    · rw [not_fits_of_longer hend (hbefore q hq)]
      rfl
  refine ⟨Cursor.skip p.text.length ⟨p.text.toList ++ rest, offset⟩, ?_, ?_⟩
  · exact rest_skip p.text.toList rest offset
  · rw [readPunctuator, hfind]

/-!
## Tokens
-/

theorem readToken_of_isIdentifierStart {ch : Char} (h : isIdentifierStart ch = true)
    (rest : List Char) (offset : Nat) :
    readToken [] ⟨ch :: rest, offset⟩ = readName ⟨ch :: rest, offset⟩ := by
  have hne : ∀ other : Char, isIdentifierStart other = false → ch ≠ other := by
    rintro other hother rfl
    cases h.symm.trans hother
  have hdigit : ch.isDigit = false := by
    by_contra hdigit
    rw [Bool.not_eq_false] at hdigit
    have := @forall_isDigit (fun ch => !isIdentifierStart ch) (by decide) ch hdigit
    simp [h] at this
  simp [readToken, h, hdigit, hne '"' (by decide +kernel), hne '\'' (by decide +kernel),
    hne '\x60' (by decide +kernel), hne '.' (by decide +kernel), hne '#' (by decide +kernel)]

theorem readToken_of_mark {p : Punctuator} (hp : p.isPlain = true) (rest : List Char)
    (offset : Nat) :
    readToken [] ⟨p.text.toList ++ rest, offset⟩ =
      readPunctuator ⟨p.text.toList ++ rest, offset⟩ := by
  cases p <;> first | rfl | cases hp

theorem isIdentifierName_keyword (k : Keyword) : isIdentifierName k.text = true := by
  cases k <;> decide +kernel

theorem ofText?_text (k : Keyword) : Keyword.ofText? k.text = some k := by
  cases k <;> decide +kernel

theorem exists_cons_of_isIdentifierName {text : String} (h : isIdentifierName text = true) :
    ∃ ch chars, text.toList = ch :: chars ∧ isIdentifierStart ch = true := by
  unfold isIdentifierName at h
  cases htext : text.toList with
  | nil =>
      rw [htext] at h
      cases h
  | cons ch chars =>
      rw [htext] at h
      simp only [Bool.and_eq_true] at h
      exact ⟨ch, chars, rfl, h.1⟩

theorem startsWord_of_isIdentifierName {text : String} (h : isIdentifierName text = true)
    (rest : List Char) : StartsWord (text.toList ++ rest) := by
  rcases exists_cons_of_isIdentifierName h with ⟨ch, chars, htext, hch⟩
  have hne : ∀ other : Char, isIdentifierStart other = false → ch ≠ other := by
    rintro other hother rfl
    cases hch.symm.trans hother
  have hblank := not_blank_of_isIdentifierStart hch
  exact ⟨ch, chars ++ rest, by rw [htext]; rfl, hblank.1, hblank.2,
    hne '#' (by decide +kernel), fun hslash => absurd hslash (hne '/' (by decide +kernel))⟩

theorem readToken_of_isIdentifierName {text : String} {rest : List Char}
    (h : isIdentifierName text = true) (hrest : ∀ ch ∈ rest.head?, continuesName ch = false)
    (offset : Nat) :
    ∃ next : Cursor, next.rest = rest ∧ readToken [] ⟨text.toList ++ rest, offset⟩ =
      PartialName.finish ⟨text.toList.reverse, false⟩ next := by
  rcases exists_cons_of_isIdentifierName h with ⟨ch, chars, htext, hch⟩
  rcases readName_text h hrest offset with ⟨next, hnext, hread⟩
  refine ⟨next, hnext, ?_⟩
  rw [← hread, htext, List.cons_append, readToken_of_isIdentifierStart hch]

theorem startsWord_of_mark {p : Punctuator} {rest : List Char} (hp : p.isPlain = true)
    (hend : ∀ ch ∈ rest.head?, p.goesOn ch = false) : StartsWord (p.text.toList ++ rest) := by
  have hslash : p = .divide → ∀ next ∈ rest.head?, next ≠ '/' ∧ next ≠ '*' := by
    rintro rfl next hnext
    have := hend next hnext
    constructor
    · rintro rfl
      cases this
    · rintro rfl
      cases this
  have hfirst : ∃ ch more, p.text.toList = ch :: more ∧ isLineBreak ch = false ∧
      isBlank ch = false ∧ ch ≠ '#' ∧
      (ch = '/' → p ≠ .divide → ∀ next ∈ (more ++ rest).head?, next ≠ '/' ∧ next ≠ '*') ∧
      (p = .divide → more = []) := by
    cases p <;> refine ⟨_, _, rfl, ?_⟩ <;> simp +decide
  rcases hfirst with ⟨ch, more, htext, hbreak, hblank, hhash, hother, hdivide⟩
  refine ⟨ch, more ++ rest, by rw [htext]; rfl, hbreak, hblank, hhash, fun hch => ?_⟩
  by_cases hp' : p = .divide
  · rw [hdivide hp']
    exact hslash hp'
  · exact hother hch hp'

/-- What a token says that was read from a word. -/
structure Lexeme.Is (l : Lexeme) (w : Word) : Prop where
  kind : l.kind = w.kind
  value : w.kind = .identifier → l.value = w.text
  escaped : l.escaped = false

theorem is_finish_name (name : OrdinaryName) (next : Cursor) :
    (PartialName.finish ⟨name.text.toList.reverse, false⟩ next).lexeme.Is (.name name) := by
  have htext : PartialName.text ⟨name.text.toList.reverse, false⟩ = name.text := by
    simp [PartialName.text]
  unfold PartialName.finish
  rw [htext]
  exact ⟨by simp [Reading.ok, name.isFree, Word.name], fun _ => rfl, rfl⟩

theorem is_finish_keyword (k : Keyword) (next : Cursor) :
    (PartialName.finish ⟨k.text.toList.reverse, false⟩ next).lexeme.Is (.keyword k) := by
  have htext : PartialName.text ⟨k.text.toList.reverse, false⟩ = k.text := by
    simp [PartialName.text]
  unfold PartialName.finish
  rw [htext]
  refine ⟨by simp [Reading.ok, ofText?_text, Word.keyword, Word.of], ?_, rfl⟩
  rintro ⟨⟩

namespace Word

variable {w : Word} {rest : List Char}

theorem Proper.startsWord (hw : w.Proper) (hend : w.EndsBefore rest) :
    StartsWord (w.text.toList ++ rest) := by
  cases hw with
  | name name => exact startsWord_of_isIdentifierName name.isName rest
  | keyword k => exact startsWord_of_isIdentifierName (isIdentifierName_keyword k) rest
  | mark hp => exact startsWord_of_mark hp hend
  | attached hp => exact startsWord_of_mark hp hend

/-- A word is read up to where it ends. -/
theorem Proper.readToken (hw : w.Proper) (hend : w.EndsBefore rest) (offset : Nat) :
    ∃ (l : Lexeme) (next : Cursor), l.Is w ∧ next.rest = rest ∧
      readToken [] ⟨w.text.toList ++ rest, offset⟩ = .ok l next := by
  cases hw with
  | name name =>
      rcases readToken_of_isIdentifierName name.isName hend offset with ⟨next, hnext, hread⟩
      exact ⟨_, next, is_finish_name name next, hnext, hread⟩
  | keyword k =>
      rcases readToken_of_isIdentifierName (isIdentifierName_keyword k) hend offset with
        ⟨next, hnext, hread⟩
      exact ⟨_, next, is_finish_keyword k next, hnext, hread⟩
  | @mark p hp =>
      rcases readPunctuator_text hp hend offset with ⟨next, hnext, hread⟩
      exact ⟨_, next, ⟨rfl, by rintro ⟨⟩, rfl⟩, hnext, (readToken_of_mark hp _ _).trans hread⟩
  | @attached p hp =>
      rcases readPunctuator_text hp hend offset with ⟨next, hnext, hread⟩
      exact ⟨_, next, ⟨rfl, by rintro ⟨⟩, rfl⟩, hnext, (readToken_of_mark hp _ _).trans hread⟩

theorem Proper.kind_ne_arrow (hw : w.Proper) : w.kind ≠ .mark .arrow := by
  cases hw with
  | name name => rintro ⟨⟩
  | keyword k => rintro ⟨⟩
  | mark hp =>
      rintro ⟨⟩
      cases hp
  | attached hp =>
      rintro ⟨⟩
      cases hp

end Word

/-!
## Scanning
-/

theorem skip_gap_end {gap : List Char} (hgap : gap.all isGap = true) (lineBreak : Bool)
    (offset : Nat) :
    ∃ stop lineBreak', stop.rest = [] ∧
      Gap.skip .between lineBreak gap offset = .token stop lineBreak' := by
  induction gap generalizing lineBreak offset with
  | nil => exact ⟨⟨[], offset⟩, lineBreak, rfl, rfl⟩
  | cons ch gap ih =>
      rw [List.all_cons, Bool.and_eq_true, isGap, Bool.or_eq_true, beq_iff_eq, beq_iff_eq] at hgap
      rcases hgap with ⟨rfl | rfl, hgap⟩
      · exact ih hgap lineBreak _
      · exact ih hgap true _

theorem skip_startsWord {chars : List Char} (h : StartsWord chars) (lineBreak : Bool)
    (offset : Nat) :
    Gap.skip .between lineBreak chars offset = .token ⟨chars, offset⟩ lineBreak := by
  rcases h with ⟨ch, rest, rfl, hbreak, hblank, hhash, hslash⟩
  unfold Gap.skip
  split <;> simp_all

/-- Blank space in front of a word is skipped. A line ends on the way only if there is more than
spaces. -/
theorem skip_gap {gap chars : List Char} (hgap : gap.all isGap = true) (h : StartsWord chars)
    (lineBreak : Bool) (offset : Nat) :
    ∃ (start : Cursor) (lineBreak' : Bool), start.rest = chars ∧
      (gap.all (· == ' ') = true → lineBreak' = lineBreak) ∧
      Gap.skip .between lineBreak (gap ++ chars) offset = .token start lineBreak' := by
  induction gap generalizing lineBreak offset with
  | nil =>
      exact ⟨⟨chars, offset⟩, lineBreak, rfl, fun _ => rfl, skip_startsWord h lineBreak offset⟩
  | cons ch gap ih =>
      rw [List.all_cons, Bool.and_eq_true, isGap, Bool.or_eq_true, beq_iff_eq, beq_iff_eq] at hgap
      rcases hgap with ⟨rfl | rfl, hgap⟩
      · rcases ih hgap lineBreak (offset + Char.utf8Size ' ') with
          ⟨start, lineBreak', hstart, hsame, hskip⟩
        exact ⟨start, lineBreak', hstart, fun hall => hsame (by simpa using hall), hskip⟩
      · rcases ih hgap true (offset + Char.utf8Size '\n') with
          ⟨start, lineBreak', hstart, _, hskip⟩
        exact ⟨start, lineBreak', hstart, fun hall => absurd hall (by simp), hskip⟩

/-- The kind of the first word, or the end of the text. -/
def firstKind : List Word → TokenKind
  | [] => .endOfFile
  | w :: _ => w.kind

namespace Scanner

variable {s : Scanner} {w : Word} {ws : List Word}

/-- The current token is the first of the words, and the text behind it consists of the others. -/
structure Faces (s : Scanner) (ws : List Word) : Prop where
  depths : s.depths = []
  error : s.error = none
  kind : s.token.kind = firstKind ws
  word : ∀ w ∈ ws.head?, w.Proper ∧ s.token.toLexeme.Is w ∧
    (w.isAttached = true → s.token.lineBreakBefore = false)
  behind : Spells s.token.next.rest ws.tail

theorem faces_scan (hdepths : s.depths = []) (herror : s.error = none)
    (hspells : Spells s.token.next.rest ws) : s.scan.Faces ws := by
  generalize hrest : s.token.next.rest = chars at hspells
  unfold scan
  rw [hrest, hdepths, herror]
  cases hspells with
  | done hgap =>
      rcases skip_gap_end hgap false s.token.next.offset with ⟨stop, lineBreak, hstop, hskip⟩
      rw [hskip]
      dsimp only
      have hread : readToken [] stop = .ok { kind := .endOfFile } stop := by
        simp [readToken, hstop]
      rw [hread]
      exact ⟨by simp [depthsAfter, Reading.ok], rfl, rfl, by simp,
        .done (by simp [hstop, Reading.ok])⟩
  | @word gap rest w ws hw hgap hattached hend hspells =>
      rw [List.append_assoc]
      rcases skip_gap hgap (hw.startsWord hend) false s.token.next.offset with
        ⟨start, lineBreak, hstart, hsame, hskip⟩
      rw [hskip]
      dsimp only
      obtain ⟨startRest, offset⟩ := start
      obtain rfl : startRest = w.text.toList ++ rest := hstart
      rcases hw.readToken hend offset with ⟨l, next, hl, hnext, hread⟩
      rw [hread]
      refine ⟨?_, rfl, hl.kind, ?_, ?_⟩
      · have hkind : l.kind ≠ .templateHead ∧ l.kind ≠ .templateMiddle := by
          rw [hl.kind]
          cases hw <;> exact ⟨by rintro ⟨⟩, by rintro ⟨⟩⟩
        simp only [depthsAfter, Reading.ok]
        split <;> simp_all
      · intro w' hw'
        obtain rfl := Option.some.inj hw'
        exact ⟨hw, hl, fun h => hsame (hattached h)⟩
      · rw [List.tail_cons]
        exact hnext ▸ hspells

theorem Faces.scan (h : s.Faces (w :: ws)) : s.scan.Faces ws :=
  faces_scan h.depths h.error h.behind

end Scanner
end Untangle
