import Mathlib.Tactic.ByContra
import Untangle.Proofs.Token.Numeral
import Untangle.Proofs.Token.Reach

/-!
# Texts that go on with another line

A text may be the beginning of a longer one that goes on with another line. Its tokens are the same
there: a token that is complete ends before the line does, and one that is malformed stays so as
long as the next line cannot complete it.
-/

namespace Untangle

open Cursor

variable {c d : Cursor} {before : Nat} {below : List Char}

/-!
## Next lines
-/

/-- A line of closing marks, which completes nothing that was left open. -/
def ClosingLine (below : List Char) : Prop :=
  ∀ ch ∈ below, ch ∈ [')', ']', ';']

theorem stops_newline : Stops '\n' :=
  .inr (.inr rfl)

/-!
## Digits and Unicode escapes
-/

theorem readDigits_inside (radix max value count : Nat) (c : Cursor) :
    readDigits radix max value count (c.inside before ('\n' :: below)) =
      ((readDigits radix max value count c).1, (readDigits radix max value count c).2.1,
        (readDigits radix max value count c).2.2.inside before ('\n' :: below)) := by
  induction max generalizing value count c with
  | zero => rfl
  | succ max ih =>
      cases hrest : c.rest with
      | nil =>
          have hdigit : Text.digitValue? radix '\n' = none := stops_newline.digitValue? radix
          simp [readDigits, head?, inside, hrest, hdigit]
      | cons ch rest =>
          have hhead : (c.inside before ('\n' :: below)).head? = c.head? := by
            simp [head?, inside, hrest]
          have hne : c.rest ≠ [] := by simp [hrest]
          rw [readDigits, readDigits, hhead, advance_inside hne]
          cases c.head?.bind (Text.digitValue? radix) with
          | none => rfl
          | some digit => exact ih _ _ _

theorem readCodeUnit_inside (c : Cursor) :
    readCodeUnit (c.inside before ('\n' :: below)) =
      ((readCodeUnit c).1, (readCodeUnit c).2.inside before ('\n' :: below)) := by
  rw [readCodeUnit, readDigits_inside]
  rfl

theorem readBracedCodePoint_inside (c : Cursor) :
    readBracedCodePoint (c.inside before ('\n' :: below)) =
      ((readBracedCodePoint c).1, (readBracedCodePoint c).2.inside before ('\n' :: below)) := by
  rw [readBracedCodePoint, readBracedCodePoint, readDigits_inside]
  dsimp only
  generalize readDigits 16 6 0 0 c = digits
  have hbrace : (digits.2.2.inside before ('\n' :: below)).head? = some '\x7d' ↔
      digits.2.2.head? = some '\x7d' := head?_inside (by decide)
  by_cases hstop : digits.2.1 = 0 ∨ 0x10FFFF < digits.1 ∨ digits.2.2.head? ≠ some '\x7d'
  · rw [if_pos hstop, if_pos (by rwa [ne_eq, hbrace])]
  · have hhead : digits.2.2.head? = some '\x7d' := by
      by_contra hne
      exact hstop (.inr (.inr hne))
    rw [if_neg hstop, if_neg (by rwa [ne_eq, hbrace]), advance_inside (ne_nil_of_head? hhead)]

theorem readUnicodeEscape_inside (c : Cursor) :
    readUnicodeEscape (c.inside before ('\n' :: below)) =
      ((readUnicodeEscape c).1, (readUnicodeEscape c).2.inside before ('\n' :: below)) := by
  have hbrace : (c.inside before ('\n' :: below)).head? = some '\x7b' ↔ c.head? = some '\x7b' :=
    head?_inside (by decide)
  rw [readUnicodeEscape, readUnicodeEscape]
  by_cases hhead : c.head? = some '\x7b'
  · rw [if_pos hhead, if_pos (hbrace.mpr hhead), advance_inside (ne_nil_of_head? hhead)]
    exact readBracedCodePoint_inside _
  · rw [if_neg hhead, if_neg (mt hbrace.mp hhead)]
    exact readCodeUnit_inside c

/-!
## Escapes
-/

/-- The same escape in a longer text. -/
def EscapeReading.inside (e : EscapeReading) (before : Nat) (after : List Char) : EscapeReading :=
  { e with
    next := e.next.inside before after
    error := e.error.map fun error => { error with offset := error.offset + before } }

theorem readLowSurrogate_inside (c : Cursor) :
    readLowSurrogate (c.inside before ('\n' :: below)) =
      (readLowSurrogate c).map fun r => (r.1, r.2.inside before ('\n' :: below)) := by
  rcases c with ⟨rest, offset⟩
  rcases rest with _ | ⟨first, _ | ⟨second, rest⟩⟩
  · rfl
  · have hnone : readLowSurrogate ⟨[first], offset⟩ = none := by
      unfold readLowSurrogate
      split
      · rename_i heq
        cases heq
      · rfl
    rw [hnone]
    unfold readLowSurrogate
    split
    · rename_i heq
      cases heq
    · rfl
  · by_cases hmark : first = '\\' ∧ second = 'u'
    · rcases hmark with ⟨rfl, rfl⟩
      have hlength : 2 ≤ (Cursor.mk ('\\' :: 'u' :: rest) offset).rest.length := by simp
      have hunit := @readCodeUnit_inside before below
        ((Cursor.mk ('\\' :: 'u' :: rest) offset).skip 2)
      rw [← skip_inside hlength] at hunit
      simp only [readLowSurrogate, inside, List.cons_append] at hunit ⊢
      rw [hunit]
      rcases readCodeUnit ((Cursor.mk ('\\' :: 'u' :: rest) offset).skip 2) with ⟨low?, next⟩
      cases low? with
      | none => rfl
      | some low =>
          dsimp only
          split
          · rfl
          · rfl
    · have hnone : ∀ rest offset, readLowSurrogate ⟨first :: second :: rest, offset⟩ = none := by
        intro rest offset
        unfold readLowSurrogate
        split
        · rename_i heq
          cases heq
          exact absurd ⟨rfl, rfl⟩ hmark
        · rfl
      rw [hnone]
      exact hnone _ _

theorem ofCodePoint_inside (code : Nat) (c : Cursor) :
    EscapeReading.ofCodePoint code (c.inside before ('\n' :: below)) =
      (EscapeReading.ofCodePoint code c).inside before ('\n' :: below) := by
  unfold EscapeReading.ofCodePoint
  rw [readLowSurrogate_inside]
  generalize readLowSurrogate c = pair?
  generalize charOfCode? code = ch?
  cases isHighSurrogate code with
  | false =>
      dsimp only
      rw [if_neg Bool.false_ne_true, if_neg Bool.false_ne_true]
      cases ch? <;> rfl
  | true =>
      dsimp only
      rw [if_pos rfl, if_pos rfl]
      cases pair? with
      | none => cases ch? <;> rfl
      | some pair =>
          rcases pair with ⟨low, next⟩
          dsimp only [Option.map_some, EscapeReading.of, EscapeReading.inside, Option.map_none]

theorem readOctalEscape_inside (first : Nat) (c : Cursor) :
    readOctalEscape first (c.inside before ('\n' :: below)) =
      (readOctalEscape first c).inside before ('\n' :: below) := by
  unfold readOctalEscape
  rw [readDigits_inside]
  rfl

theorem readHexEscape_inside (c : Cursor) :
    readHexEscape (c.inside before ('\n' :: below)) =
      (readHexEscape c).inside before ('\n' :: below) := by
  unfold readHexEscape
  rw [readDigits_inside]
  dsimp only
  split
  · rfl
  · rfl

theorem readCodePointEscape_inside (c : Cursor) :
    readCodePointEscape (c.inside before ('\n' :: below)) =
      (readCodePointEscape c).inside before ('\n' :: below) := by
  unfold readCodePointEscape
  rw [readUnicodeEscape_inside]
  rcases readUnicodeEscape c with ⟨code?, next⟩
  cases code? with
  | none => rfl
  | some code => exact ofCodePoint_inside code next

/-- A line continuation goes on with the next line only when it ends the line itself. -/
theorem readLineContinuation_inside {ch : Char} (h : ch = '\r' → c.rest ≠ []) :
    readLineContinuation ch (c.inside before ('\n' :: below)) =
      (readLineContinuation ch c).inside before ('\n' :: below) := by
  unfold readLineContinuation
  by_cases hch : ch = '\r'
  · have hhead : (c.inside before ('\n' :: below)).head? = c.head? := by
      rcases List.exists_cons_of_ne_nil (h hch) with ⟨first, rest, hrest⟩
      simp [head?, inside, hrest]
    rw [hhead, advance_inside (h hch)]
    split
    · rfl
    · rfl
  · rw [if_neg fun hboth => hch hboth.1, if_neg fun hboth => hch hboth.1]
    rfl

theorem readEscapeAfter_inside (inTemplate : Bool) {ch : Char} (h : ch = '\r' → c.rest ≠ [])
    (offset : Nat) :
    readEscapeAfter inTemplate ch (offset + before) (c.inside before ('\n' :: below)) =
      (readEscapeAfter inTemplate ch offset c).inside before ('\n' :: below) := by
  unfold readEscapeAfter
  rw [any_head?_inside stops_newline.isDigit]
  split
  · rfl
  split
  · rfl
  split
  · rfl
  split
  · exact readOctalEscape_inside _ c
  split
  · exact readHexEscape_inside c
  split
  · exact readCodePointEscape_inside c
  split
  · exact readLineContinuation_inside h
  · rfl

/-- The end of the text, or a carriage return in front of it, is no escape that is complete. -/
theorem readEscape_inside (inTemplate : Bool) (hne : c.rest ≠ []) (hreturn : c.rest ≠ ['\r']) :
    readEscape inTemplate (c.inside before ('\n' :: below)) =
      (readEscape inTemplate c).inside before ('\n' :: below) := by
  rcases List.exists_cons_of_ne_nil hne with ⟨ch, rest, hrest⟩
  have hhead : (c.inside before ('\n' :: below)).head? = some ch := by
    simp [head?, inside, hrest]
  have hhead' : c.head? = some ch := by simp [head?, hrest]
  have hadvance : ch = '\r' → c.advance.rest ≠ [] := by
    rintro rfl hnil
    have hbehind : rest = [] := by simpa [advance, hrest] using hnil
    exact hreturn (by rw [hrest, hbehind])
  rw [readEscape, readEscape, hhead, hhead', advance_inside hne]
  exact readEscapeAfter_inside inTemplate hadvance c.offset

/-!
## Literals
-/

/-- A closing line closes no string. -/
theorem readStringFrom_closingLine {quote : Char} (hquote : quote = '"' ∨ quote = '\'')
    (opening : Nat) (reversed : List Char) (surrogate : Bool) (hbelow : ClosingLine below)
    (offset : Nat) :
    (readStringFrom quote opening reversed surrogate ⟨below, offset⟩).lexeme.kind = .unknown ∧
      (readStringFrom quote opening reversed surrogate ⟨below, offset⟩).error.isSome = true := by
  induction below generalizing reversed offset with
  | nil =>
      unfold readStringFrom
      exact ⟨rfl, rfl⟩
  | cons ch below ih =>
      have hch : ch ≠ quote ∧ ¬ (ch = '\n' ∨ ch = '\r') ∧ ch ≠ '\\' := by
        have hmem := hbelow ch List.mem_cons_self
        simp only [List.mem_cons, List.not_mem_nil, or_false] at hmem
        rcases hmem with rfl | rfl | rfl <;> rcases hquote with rfl | rfl <;> decide
      have hrest : ClosingLine below := fun ch' hch' => hbelow ch' (List.mem_cons_of_mem _ hch')
      unfold readStringFrom
      dsimp only
      rw [if_neg hch.1, if_neg hch.2.1, if_neg hch.2.2]
      exact ih _ hrest _

/-- Behind a backslash at the end of the text the next line makes a line continuation. -/
theorem readEscape_end (inTemplate : Bool) (h : c.rest = [] ∨ c.rest = ['\r']) :
    ∃ offset, readEscape inTemplate (c.inside before ('\n' :: below)) =
      .of none ⟨below, offset⟩ := by
  rcases c with ⟨rest, offset⟩
  rcases h with h | h
  · cases h
    exact ⟨offset + before + 1, rfl⟩
  · cases h
    exact ⟨offset + before + 1 + 1, rfl⟩

/-- Nothing follows an escape at the end of the text. -/
theorem readEscape_rest_end {inTemplate : Bool} (hend : c.rest = [] ∨ c.rest = ['\r']) :
    (readEscape inTemplate c).next.rest = [] := by
  rcases c with ⟨chars, offset⟩
  rcases hend with hend | hend
  · cases hend
    rfl
  · cases hend
    rfl

section Strings

variable {quote ch : Char} {opening opening' : Nat} {reversed rest : List Char} {surrogate : Bool}

theorem inside_of_cons {after : List Char} (hrest : c.rest = ch :: rest) :
    c.inside before after = ⟨ch :: (rest ++ after), c.offset + before⟩ := by
  rw [inside, hrest, List.cons_append]

theorem rest_inside_of_cons {after : List Char} (hrest : c.rest = ch :: rest) :
    (c.inside before after).rest = ch :: (rest ++ after) :=
  congrArg Cursor.rest (inside_of_cons hrest)

theorem advance_inside_of_cons {after : List Char} (hrest : c.rest = ch :: rest) :
    (c.inside before after).advance = c.advance.inside before after :=
  advance_inside (hrest ▸ List.cons_ne_nil ch rest)

theorem inside_of_nil {after : List Char} (hrest : c.rest = []) :
    c.inside before after = ⟨after, c.offset + before⟩ := by
  rw [inside, hrest, List.nil_append]

theorem readStringFrom_nil (hrest : c.rest = []) :
    readStringFrom quote opening reversed surrogate c =
      ⟨{ kind := .unknown, loneSurrogate := surrogate }, c,
        some ⟨.unterminatedString, opening⟩⟩ := by
  rcases c with ⟨chars, offset⟩
  obtain rfl : chars = [] := hrest
  rw [readStringFrom]

theorem readStringFrom_newline (hquote : '\n' ≠ quote) (offset : Nat) :
    readStringFrom quote opening reversed surrogate ⟨'\n' :: rest, offset⟩ =
      ⟨{ kind := .unknown, loneSurrogate := surrogate }, ⟨'\n' :: rest, offset⟩,
        some ⟨.unterminatedString, opening⟩⟩ := by
  unfold readStringFrom
  dsimp only
  rw [if_neg hquote, if_pos (.inl rfl)]

theorem readStringFrom_malformed {error : LexicalError} (hquote : '\\' ≠ quote)
    (hrest : c.rest = '\\' :: rest) (herror : (readEscape false c.advance).error = some error) :
    readStringFrom quote opening reversed surrogate c =
      ⟨{ kind := .unknown, loneSurrogate := surrogate }, (readEscape false c.advance).next,
        some ⟨error.cause, error.offset⟩⟩ := by
  rcases c with ⟨chars, offset⟩
  obtain rfl : chars = '\\' :: rest := hrest
  rw [readStringFrom]
  dsimp only
  rw [if_neg hquote, if_neg (by decide), if_pos rfl, herror]

theorem readStringFrom_wellFormed (hquote : '\\' ≠ quote) (hrest : c.rest = '\\' :: rest)
    (herror : (readEscape false c.advance).error = none) :
    readStringFrom quote opening reversed surrogate c =
      readStringFrom quote opening ((readEscape false c.advance).char?.toList ++ reversed)
        (surrogate || (readEscape false c.advance).loneSurrogate)
        (readEscape false c.advance).next := by
  rcases c with ⟨chars, offset⟩
  obtain rfl : chars = '\\' :: rest := hrest
  rw [readStringFrom]
  dsimp only
  rw [if_neg hquote, if_neg (by decide), if_pos rfl, herror]

/-- With a backslash at the end of the text the string goes on in the next line, and stays open. -/
theorem readStringFrom_end (hquote : quote = '"' ∨ quote = '\'') (hbelow : ClosingLine below)
    (hrest : c.rest = '\\' :: rest) (hend : c.advance.rest = [] ∨ c.advance.rest = ['\r']) :
    (readStringFrom quote opening reversed surrogate
        (c.inside before ('\n' :: below))).lexeme.kind = .unknown ∧
      (readStringFrom quote opening reversed surrogate
        (c.inside before ('\n' :: below))).error.isSome = true := by
  have hmark : '\\' ≠ quote := by rcases hquote with rfl | rfl <;> decide
  rcases @readEscape_end c.advance before below false hend with ⟨offset, hread⟩
  rw [← advance_inside_of_cons hrest] at hread
  rw [readStringFrom_wellFormed hmark (rest_inside_of_cons hrest) (by rw [hread]; rfl), hread]
  exact readStringFrom_closingLine hquote _ _ _ hbelow _

/-- A string is read alike, or it is open at the end of the text and stays open. -/
theorem readStringFrom_stays (hquote : quote = '"' ∨ quote = '\'') (hbelow : ClosingLine below)
    (c : Cursor) :
    (readStringFrom quote opening reversed surrogate c).Stays before ('\n' :: below)
      (readStringFrom quote opening' reversed surrogate (c.inside before ('\n' :: below))) := by
  have hnewline : '\n' ≠ quote := by rcases hquote with rfl | rfl <;> decide
  have hmark : '\\' ≠ quote := by rcases hquote with rfl | rfl <;> decide
  fun_induction readStringFrom quote opening reversed surrogate c with
  | case1 reversed surrogate c fail =>
      rename_i hrest
      rw [inside_of_nil hrest, readStringFrom_newline hnewline]
      exact .malformed rfl rfl rfl rfl
  | case2 reversed surrogate c rest hrest =>
      rcases c with ⟨chars, offset⟩
      obtain rfl : chars = quote :: rest := hrest
      have hlonger : (Cursor.mk (quote :: rest) offset).inside before ('\n' :: below) =
          ⟨quote :: (rest ++ '\n' :: below), offset + before⟩ := inside_of_cons rfl
      have hadvance := @advance_inside_of_cons ⟨quote :: rest, offset⟩ before quote rest
        ('\n' :: below) rfl
      rw [hlonger] at hadvance ⊢
      rw [readStringFrom]
      dsimp only
      rw [if_pos rfl, hadvance]
      exact .complete (by rintro ⟨⟩)
  | case3 reversed surrogate c fail ch rest hrest hne =>
      rename_i hbreak
      rw [inside_of_cons hrest, readStringFrom]
      dsimp only
      rw [if_neg hne, if_pos hbreak]
      exact .malformed rfl rfl rfl rfl
  | case4 reversed surrogate c fail rest error herror hrest =>
      by_cases hend : c.advance.rest = [] ∨ c.advance.rest = ['\r']
      · have hopen := @readStringFrom_end c before below quote opening' reversed rest surrogate
          hquote hbelow hrest hend
        exact .malformed rfl rfl hopen.1 hopen.2
      · rw [not_or] at hend
        have hread := @readEscape_inside c.advance before below false hend.1 hend.2
        have herror' : (readEscape false (c.inside before ('\n' :: below)).advance).error =
            some ⟨error.cause, error.offset + before⟩ := by
          rw [advance_inside_of_cons hrest, hread, EscapeReading.inside, herror]
          rfl
        rw [readStringFrom_malformed hmark (rest_inside_of_cons hrest) herror']
        exact .malformed rfl rfl rfl rfl
  | case5 reversed surrogate c rest hread hrest hne hbreak ih =>
      by_cases hend : c.advance.rest = [] ∨ c.advance.rest = ['\r']
      · have hopen := @readStringFrom_end c before below quote opening' reversed rest surrogate
          hquote hbelow hrest hend
        rw [readStringFrom_nil (readEscape_rest_end hend)]
        exact .malformed rfl rfl hopen.1 hopen.2
      · rw [not_or] at hend
        have hinside := @readEscape_inside c.advance before below false hend.1 hend.2
        rw [← advance_inside_of_cons hrest] at hinside
        have herror :
            (readEscape false (c.inside before ('\n' :: below)).advance).error = none := by
          rw [hinside, EscapeReading.inside, hread]
          rfl
        rw [readStringFrom_wellFormed hmark (rest_inside_of_cons hrest) herror, hinside]
        exact ih
  | case6 reversed surrogate c ch rest hrest hne hbreak hplain ih =>
      rw [← advance_inside_of_cons hrest] at ih
      rw [inside_of_cons hrest] at ih ⊢
      rw [readStringFrom.eq_def quote opening']
      dsimp only
      rw [if_neg hne, if_neg hbreak, if_neg hplain]
      exact ih

end Strings

section Templates

variable {kinds : PieceKinds} {opening opening' : Nat} {content : Cursor} {piece : TemplatePiece}
  {rest : List Char}

/-- A template piece is complete at a token of one of these kinds. -/
def PieceKinds.Known (kinds : PieceKinds) : Prop :=
  kinds.finished ≠ .unknown ∧ kinds.unfinished ≠ .unknown

/-- A closing line closes no template. -/
theorem readTemplateFrom_closingLine (hbelow : ClosingLine below) (offset : Nat) :
    (readTemplateFrom kinds opening content piece ⟨below, offset⟩).lexeme.kind = .unknown ∧
      (readTemplateFrom kinds opening content piece ⟨below, offset⟩).error.isSome = true := by
  induction below generalizing piece offset with
  | nil =>
      rw [readTemplateFrom]
      exact ⟨rfl, rfl⟩
  | cons ch below ih =>
      have hch : ch ≠ '\x60' ∧ ch ≠ '$' ∧ ch ≠ '\\' ∧ ch ≠ '\r' := by
        have hmem := hbelow ch List.mem_cons_self
        simp only [List.mem_cons, List.not_mem_nil, or_false] at hmem
        rcases hmem with rfl | rfl | rfl <;> decide
      have hrest : ClosingLine below := fun ch' hch' => hbelow ch' (List.mem_cons_of_mem _ hch')
      rw [readTemplateFrom]
      dsimp only
      rw [if_neg hch.1, if_neg fun h => hch.2.1 h.1, if_neg hch.2.2.1,
        if_neg fun h => hch.2.2.2 h.1, if_neg hch.2.2.2]
      exact ih hrest _

theorem readTemplateFrom_nil (hrest : c.rest = []) :
    readTemplateFrom kinds opening content piece c =
      ⟨{ kind := .unknown, loneSurrogate := piece.surrogate }, c,
        some ⟨.unterminatedTemplate, opening⟩⟩ := by
  rcases c with ⟨chars, offset⟩
  obtain rfl : chars = [] := hrest
  rw [readTemplateFrom]

theorem readTemplateFrom_cons {ch : Char} (hrest : c.rest = ch :: rest) :
    readTemplateFrom kinds opening content piece c =
      if ch = '\x60' then .ok (piece.lexeme kinds.finished (content.charsTo c)) c.advance
      else if ch = '$' ∧ rest.head? = some '\x7b' then
        .ok (piece.lexeme kinds.unfinished (content.charsTo c)) (c.skip 2)
      else if ch = '\\' then
        readTemplateFrom kinds opening content
          (piece.pushEscape (readEscape true c.advance)) (readEscape true c.advance).next
      else if ch = '\r' ∧ rest.head? = some '\n' then
        readTemplateFrom kinds opening content (piece.push '\n') (c.skip 2)
      else if ch = '\r' then
        readTemplateFrom kinds opening content (piece.push '\n') c.advance
      else readTemplateFrom kinds opening content (piece.push ch) c.advance := by
  rcases c with ⟨chars, offset⟩
  obtain rfl : chars = ch :: rest := hrest
  rw [readTemplateFrom]

/-- The template goes on in the next line, and stays open. -/
theorem readTemplateFrom_newline (hbelow : ClosingLine below) (offset : Nat) :
    (readTemplateFrom kinds opening content piece ⟨'\n' :: below, offset⟩).lexeme.kind = .unknown ∧
      (readTemplateFrom kinds opening content piece
        ⟨'\n' :: below, offset⟩).error.isSome = true := by
  rw [readTemplateFrom_cons rfl, if_neg (by decide), if_neg (fun h => absurd h.1 (by decide)),
    if_neg (by decide), if_neg (fun h => absurd h.1 (by decide)), if_neg (by decide)]
  exact readTemplateFrom_closingLine hbelow _

theorem pushEscape_inside (piece : TemplatePiece) (e : EscapeReading) (after : List Char) :
    piece.pushEscape (e.inside before after) = piece.pushEscape e := by
  simp [TemplatePiece.pushEscape, EscapeReading.inside]

/-- A template piece is read alike, or it is open at the end of the text and stays open. -/
theorem readTemplateFrom_stays (hkinds : kinds.Known) (hbelow : ClosingLine below)
    (hcontent : content.Reaches c) :
    (readTemplateFrom kinds opening content piece c).Stays before ('\n' :: below)
      (readTemplateFrom kinds opening' (content.inside before ('\n' :: below)) piece
        (c.inside before ('\n' :: below))) := by
  fun_induction readTemplateFrom kinds opening content piece c with
  | case1 piece c hrest =>
      rw [inside_of_nil hrest]
      have hopen := @readTemplateFrom_newline below kinds opening'
        (content.inside before ('\n' :: below)) piece hbelow (c.offset + before)
      exact .malformed rfl rfl hopen.1 hopen.2
  | case2 piece c rest hrest =>
      rw [readTemplateFrom_cons (rest_inside_of_cons hrest), if_pos rfl,
        advance_inside_of_cons hrest, hcontent.charsTo_inside]
      exact .complete hkinds.1
  | case3 piece c ch rest hrest hclosing =>
      rename_i hopens
      have hhead : (rest ++ '\n' :: below).head? = some '\x7b' := by
        rcases List.head?_eq_some_iff.mp hopens.2 with ⟨more, rfl⟩
        rfl
      have hlength : 2 ≤ c.rest.length := by
        rcases List.head?_eq_some_iff.mp hopens.2 with ⟨more, rfl⟩
        simp [hrest]
      rw [readTemplateFrom_cons (rest_inside_of_cons hrest), if_neg hclosing,
        if_pos ⟨hopens.1, hhead⟩, skip_inside hlength, hcontent.charsTo_inside]
      exact .complete hkinds.2
  | case4 piece c rest hrest hfinished hunfinished ih =>
      rw [readTemplateFrom_cons (rest_inside_of_cons hrest), if_neg hfinished,
        if_neg (fun h => absurd h.1 (by decide)), if_pos rfl, advance_inside_of_cons hrest]
      by_cases hend : c.advance.rest = [] ∨ c.advance.rest = ['\r']
      · rcases @readEscape_end c.advance before below true hend with ⟨offset, hread⟩
        rw [hread]
        have hopen := @readTemplateFrom_closingLine below kinds opening'
          (content.inside before ('\n' :: below)) (piece.pushEscape (.of none ⟨below, offset⟩))
          hbelow offset
        rw [readTemplateFrom_nil (readEscape_rest_end hend)]
        exact .malformed rfl rfl hopen.1 hopen.2
      · rw [not_or] at hend
        have hread := @readEscape_inside c.advance before below true hend.1 hend.2
        rw [hread, pushEscape_inside]
        exact ih ((hcontent.trans c.reaches_advance).trans (reaches_readEscape _ _))
  | case5 piece c ch rest hrest hfinished hunfinished hplain hpair ih =>
      rcases List.head?_eq_some_iff.mp hpair.2 with ⟨more, rfl⟩
      have hhead : (('\n' :: more) ++ '\n' :: below).head? = some '\n' := rfl
      rw [readTemplateFrom_cons (rest_inside_of_cons hrest), if_neg hfinished, if_neg,
        if_neg hplain, if_pos ⟨hpair.1, hhead⟩, skip_inside (by simp [hrest])]
      · exact ih (hcontent.trans (reaches_skip 2 c))
      · intro h
        exact absurd (hpair.1.symm.trans h.1) (by decide)
  | case6 piece c rest hrest hfinished hunfinished hplain hpair ih =>
      have hdollar : ¬ ('\r' = '$' ∧ (rest ++ '\n' :: below).head? = some '\x7b') :=
        fun h => absurd h.1 (by decide)
      rw [readTemplateFrom_cons (rest_inside_of_cons hrest), if_neg hfinished,
        if_neg hdollar, if_neg hplain]
      by_cases hend : rest = []
      · subst hend
        have hbehind : c.advance.rest = [] := by simp [advance, hrest]
        have hskip : (c.inside before ('\n' :: below)).skip 2 =
            ⟨below, c.offset + before + 1 + 1⟩ := by
          rw [inside_of_cons hrest]
          rfl
        rw [if_pos ⟨rfl, rfl⟩, hskip, readTemplateFrom_nil hbehind]
        have hopen := @readTemplateFrom_closingLine below kinds opening'
          (content.inside before ('\n' :: below)) (piece.push '\n') hbelow
        exact .malformed rfl rfl (hopen _).1 (hopen _).2
      · have hhead : (rest ++ '\n' :: below).head? = rest.head? := by
          rcases List.exists_cons_of_ne_nil hend with ⟨first, more, rfl⟩
          rfl
        rw [hhead, if_neg hpair, if_pos rfl, advance_inside_of_cons hrest]
        exact ih (hcontent.trans c.reaches_advance)
  | case7 piece c ch rest hrest hfinished hunfinished hplain hpair hreturn ih =>
      have hopens : ¬ (ch = '$' ∧ (rest ++ '\n' :: below).head? = some '\x7b') := by
        intro h
        refine hunfinished ⟨h.1, ?_⟩
        cases rest with
        | nil => exact absurd h.2 (by simp)
        | cons _ _ => exact h.2
      rw [readTemplateFrom_cons (rest_inside_of_cons hrest), if_neg hfinished, if_neg hopens,
        if_neg hplain, if_neg (fun h => hreturn h.1), if_neg hreturn, advance_inside_of_cons hrest]
      exact ih (hcontent.trans c.reaches_advance)

end Templates

/-!
## Names
-/

section Names

variable {n : PartialName} {ch : Char} {rest : List Char}

theorem accepts_newline (n : PartialName) : n.accepts '\n' = false := by
  unfold PartialName.accepts
  split
  · exact stops_newline.isIdentifierStart
  · decide

theorem readNameFrom_cons (hrest : c.rest = ch :: rest) :
    readNameFrom n c =
      if ch = '\\' then
        if rest.head? = some 'u' then
          match ((readUnicodeEscape (c.skip 2)).1.bind charOfCode?).filter n.accepts with
          | some decoded => readNameFrom (n.pushEscaped decoded) (readUnicodeEscape (c.skip 2)).2
          | none => n.fail .invalidUnicodeEscape c.offset (readUnicodeEscape (c.skip 2)).2
        else n.fail (.invalidCharacter '\\') c.offset c
      else if n.accepts ch then readNameFrom (n.push ch) c.advance
      else n.finish c := by
  rcases c with ⟨chars, offset⟩
  obtain rfl : chars = ch :: rest := hrest
  exact (readNameFrom.eq_def n ⟨ch :: rest, offset⟩).trans rfl

theorem kind_finish_ne (n : PartialName) (c : Cursor) : (n.finish c).lexeme.kind ≠ .unknown := by
  unfold PartialName.finish
  dsimp only [Reading.ok]
  cases (if n.escaped then none else Keyword.ofText? n.text) with
  | none => nofun
  | some k => nofun

/-- A name ends with the text. -/
theorem readNameFrom_stays (n : PartialName) (c : Cursor) :
    (readNameFrom n c).Stays before ('\n' :: below)
      (readNameFrom n (c.inside before ('\n' :: below))) := by
  have hfinish : ∀ n c, (PartialName.finish n c).Stays before ('\n' :: below)
      (n.finish (c.inside before ('\n' :: below))) :=
    fun n c => .complete (kind_finish_ne n c)
  fun_induction readNameFrom n c with
  | case1 n c hrest =>
      have hlonger : (c.inside before ('\n' :: below)).rest = '\n' :: below := by
        rw [inside_of_nil hrest]
      rw [readNameFrom_cons hlonger, if_neg (by decide), accepts_newline,
        if_neg Bool.false_ne_true]
      exact hfinish n c
  | case2 n c rest hmark code? next hread decoded haccepts hrest ih =>
      rcases List.head?_eq_some_iff.mp hmark with ⟨more, rfl⟩
      have hmark' : ('u' :: more ++ '\n' :: below).head? = some 'u' := rfl
      rw [readNameFrom_cons (rest_inside_of_cons hrest), if_pos rfl, if_pos hmark',
        skip_inside (by simp [hrest]), readUnicodeEscape_inside, hread]
      rw [hread] at ih
      dsimp only at ih ⊢
      rw [haccepts]
      exact ih
  | case3 n c rest hmark code? next hread hrejects hrest =>
      rcases List.head?_eq_some_iff.mp hmark with ⟨more, rfl⟩
      have hmark' : ('u' :: more ++ '\n' :: below).head? = some 'u' := rfl
      rw [readNameFrom_cons (rest_inside_of_cons hrest), if_pos rfl, if_pos hmark',
        skip_inside (by simp [hrest]), readUnicodeEscape_inside, hread]
      dsimp only
      rw [hrejects]
      exact .malformed rfl rfl rfl rfl
  | case4 n c rest hmark hrest =>
      have hmark' : (rest ++ '\n' :: below).head? ≠ some 'u' := by
        cases rest with
        | nil => exact fun h => absurd (Option.some.inj h) (by decide)
        | cons first more => exact hmark
      rw [readNameFrom_cons (rest_inside_of_cons hrest), if_pos rfl, if_neg hmark']
      exact .malformed rfl rfl rfl rfl
  | case5 n c ch rest hrest hplain haccepts ih =>
      rw [readNameFrom_cons (rest_inside_of_cons hrest), if_neg hplain, if_pos haccepts,
        advance_inside_of_cons hrest]
      exact ih
  | case6 n c ch rest hrest hplain hrejects =>
      rw [readNameFrom_cons (rest_inside_of_cons hrest), if_neg hplain, if_neg hrejects]
      exact hfinish n c

theorem readPrivateName_stays (hne : c.rest ≠ []) :
    (readPrivateName c).Stays before ('\n' :: below)
      (readPrivateName (c.inside before ('\n' :: below))) := by
  have hstarts : (fun ch => ch == '\\' || Text.isIdentifierStart ch) '\n' = false := by
    dsimp only
    rw [stops_newline.isIdentifierStart]
    rfl
  have hname : (readName c.advance).Stays before ('\n' :: below)
      (readName (c.advance.inside before ('\n' :: below))) := readNameFrom_stays _ _
  unfold readPrivateName
  dsimp only
  rw [advance_inside hne, any_head?_inside hstarts]
  by_cases hstart : (c.advance.head?.any fun ch => ch == '\\' || Text.isIdentifierStart ch) = true
  · rw [if_pos hstart, if_pos hstart]
    generalize readName c.advance = r at hname
    generalize readName (c.advance.inside before ('\n' :: below)) = longer at hname
    cases hname with
    | complete hknown => exact .complete (by rintro ⟨⟩)
    | malformed hkind herror hkind' herror' =>
        rw [if_pos herror, if_pos herror']
        exact .malformed hkind herror hkind' herror'
  · rw [if_neg hstart, if_neg hstart]
    exact .malformed rfl rfl rfl rfl

end Names

end Untangle
