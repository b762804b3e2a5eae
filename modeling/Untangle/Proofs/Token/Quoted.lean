import Untangle.Proofs.Token.Numeral
import Untangle.Text.Quoted

/-!
# Scanning canonical string literals

A canonical literal reads back as the value it was written for, whatever text follows it. The
written form of one character is either the character itself or a backslash with an escape that
stands for it. How an escape reads may depend on what comes behind it: a null character is only
written in short form where no digit follows.
-/

namespace Untangle

open Cursor Text

variable {style : QuoteStyle} {ch : Char} {rest tail : List Char} {offset : Nat}

/-!
## Hexadecimal escapes
-/

theorem digitValue?_upperHexDigit : ∀ n < 16, digitValue? 16 (upperHexDigit n) = some n := by
  decide

theorem charOfCode?_toNat (ch : Char) : charOfCode? ch.toNat = some ch := by
  have hvalid : ch.toNat.isValidChar := ch.valid
  rw [charOfCode?, dif_pos hvalid]
  exact congrArg some (Char.ext (UInt32.toNat_inj.mp rfl))

/-- Two digits spell the value of any byte. -/
theorem readHexEscape_hexByte {n : Nat} (h : n < 256) (tail : List Char) (offset : Nat) :
    readHexEscape ⟨hexByte n ++ tail, offset⟩ = .of (charOfCode? n) ⟨tail, offset + 2⟩ := by
  have hhigh := digitValue?_upperHexDigit (n / 16) (by omega)
  have hlow := digitValue?_upperHexDigit (n % 16) (by omega)
  have hvalue : 16 * (n / 16) + n % 16 = n := Nat.div_add_mod n 16
  simp [readHexEscape, readDigits, hexByte, head?, advance, hhigh, hlow,
    utf8Size_of_digitValue? hhigh, utf8Size_of_digitValue? hlow, hvalue]

/-!
## Single characters
-/

/-- A character that stands for itself inside a literal. -/
def IsPlain (quote ch : Char) : Prop :=
  ch ≠ quote ∧ ch ≠ '\n' ∧ ch ≠ '\r' ∧ ch ≠ '\\'

/-- Behind a backslash and in front of `tail`, the characters read as an escape for `ch`. -/
def EscapesTo (body : List Char) (ch : Char) (tail : List Char) : Prop :=
  ∀ offset, readEscape false ⟨body ++ tail, offset⟩ =
    .of (some ch) ⟨tail, offset + byteLength body⟩

theorem escapesTo_null (h : tail.head?.any Char.isDigit = false) :
    EscapesTo ['0'] '\x00' tail := by
  intro offset
  have hshort : readEscapeAfter false '0' offset ⟨tail, offset + 1⟩ =
      .of (some '\x00') ⟨tail, offset + 1⟩ := by
    simp [readEscapeAfter, singleEscape?, head?, h]
  exact hshort

theorem escapesTo_quote (style : QuoteStyle) : EscapesTo [style.quote] style.quote tail := by
  cases style <;> exact fun offset => rfl

theorem escapesTo_hexByte (h : ch.toNat < 256) : EscapesTo ('x' :: hexByte ch.toNat) ch tail := by
  intro offset
  have hread := readHexEscape_hexByte h tail (offset + 1)
  have hhigh := digitValue?_upperHexDigit (ch.toNat / 16) (by omega)
  have hlow := digitValue?_upperHexDigit (ch.toNat % 16) (by omega)
  have hlength : byteLength ('x' :: hexByte ch.toNat) = 3 := by
    rw [hexByte, byteLength, byteLength, byteLength, utf8Size_of_digitValue? hhigh,
      utf8Size_of_digitValue? hlow]
    rfl
  rw [charOfCode?_toNat] at hread
  rw [hlength]
  exact hread

theorem not_isDigit_of_control (h : ch.toNat < 0x20 ∨ ch = '\x7f') : ch.isDigit = false := by
  rcases h with hlow | rfl
  · rw [Bool.eq_false_iff]
    intro hdigit
    simp only [Char.isDigit, ge_iff_le, Bool.and_eq_true, decide_eq_true_eq] at hdigit
    have hzero : 48 ≤ ch.toNat := hdigit.1
    omega
  · rfl

/-- The short form of a null character reads back where no digit follows it. -/
theorem escapesTo_escapeChar_null {next : Option Char}
    (hnext : tail.head?.any Char.isDigit = next.any Char.isDigit) :
    ∃ body, escapeChar style.quote next '\x00' = '\\' :: body ∧ EscapesTo body '\x00' tail := by
  cases hdigit : next.any Char.isDigit with
  | true => exact ⟨['x', '0', '0'], by simp [escapeChar, hdigit], fun _ => rfl⟩
  | false => exact ⟨['0'], by simp [escapeChar, hdigit], escapesTo_null (hnext.trans hdigit)⟩

/-- The characters with an escape of their own. -/
def namedEscapes : List Char :=
  ['\\', '\n', '\r', '\t', '\x08', '\x0b', '\x0c', '\u2028', '\u2029']

theorem escapesTo_escapeChar_named {next : Option Char} (h : ch ∈ namedEscapes) :
    ∃ body, escapeChar style.quote next ch = '\\' :: body ∧ ch.isDigit = false ∧
      EscapesTo body ch tail := by
  simp only [namedEscapes, List.mem_cons, List.not_mem_nil, or_false] at h
  rcases h with rfl | rfl | rfl | rfl | rfl | rfl | rfl | rfl | rfl <;>
    exact ⟨_, rfl, rfl, fun _ => rfl⟩

/-- The written form of a character is the character or an escape for it. -/
theorem escapeChar_cases {next : Option Char}
    (hnext : tail.head?.any Char.isDigit = next.any Char.isDigit) :
    (escapeChar style.quote next ch = [ch] ∧ IsPlain style.quote ch) ∨
      ∃ body, escapeChar style.quote next ch = '\\' :: body ∧ ch.isDigit = false ∧
        EscapesTo body ch tail := by
  by_cases hnamed : ch ∈ namedEscapes
  · exact .inr (escapesTo_escapeChar_named hnamed)
  by_cases hnull : ch = '\x00'
  · subst ch
    obtain ⟨body, hwritten, hread⟩ := @escapesTo_escapeChar_null style tail next hnext
    exact .inr ⟨body, hwritten, rfl, hread⟩
  simp only [namedEscapes, List.mem_cons, List.not_mem_nil, or_false, not_or] at hnamed
  obtain ⟨hmark, hfeed, hreturn, htab, hback, hvertical, hform, hline, hparagraph⟩ := hnamed
  rw [escapeChar, if_neg hmark, if_neg hfeed, if_neg hreturn, if_neg htab, if_neg hback,
    if_neg hvertical, if_neg hform, if_neg hnull, if_neg hline, if_neg hparagraph]
  by_cases hquote : ch = style.quote
  · subst ch
    rw [if_pos rfl]
    exact .inr ⟨_, rfl, by cases style <;> rfl, escapesTo_quote style⟩
  rw [if_neg hquote]
  by_cases hcontrol : ch.toNat < 0x20 ∨ ch = '\x7f'
  · rw [if_pos hcontrol]
    have hbyte : ch.toNat < 256 := by
      rcases hcontrol with hlow | rfl
      · omega
      · decide
    exact .inr ⟨_, rfl, not_isDigit_of_control hcontrol, escapesTo_hexByte hbyte⟩
  · rw [if_neg hcontrol]
    exact .inl ⟨rfl, hquote, hfeed, hreturn, hmark⟩

/-- The written form of a text starts with a digit where the text does. -/
theorem any_isDigit_escapeChars (style : QuoteStyle) (chars tail : List Char) :
    (escapeChars style.quote chars ++ style.quote :: tail).head?.any Char.isDigit =
      chars.head?.any Char.isDigit := by
  cases chars with
  | nil => cases style <;> rfl
  | cons ch rest =>
      have hnext : rest.head?.toList.head?.any Char.isDigit = rest.head?.any Char.isDigit := by
        cases rest <;> rfl
      rcases @escapeChar_cases style ch _ _ hnext with ⟨hplain, _⟩ | ⟨body, hescape, hdigit, _⟩
      · simp [escapeChars, hplain]
      · simp [escapeChars, hescape, hdigit]

/-!
## Whole literals
-/

section Steps

variable {quote : Char} {opening : Nat} {reversed : List Char}

theorem readStringFrom_quote :
    readStringFrom quote opening reversed false ⟨quote :: tail, offset⟩ =
      .ok { kind := .string, value := String.ofList reversed.reverse }
        ⟨tail, offset + quote.utf8Size⟩ := by
  rw [readStringFrom]
  simp [advance]

theorem readStringFrom_plain (h : IsPlain quote ch) :
    readStringFrom quote opening reversed false ⟨ch :: rest, offset⟩ =
      readStringFrom quote opening (ch :: reversed) false ⟨rest, offset + ch.utf8Size⟩ := by
  obtain ⟨hquote, hfeed, hreturn, hmark⟩ := h
  rw [readStringFrom]
  simp [hquote, hfeed, hreturn, hmark, advance]

theorem readStringFrom_escape {body : List Char} (hquote : '\\' ≠ quote)
    (h : EscapesTo body ch rest) :
    readStringFrom quote opening reversed false ⟨'\\' :: (body ++ rest), offset⟩ =
      readStringFrom quote opening (ch :: reversed) false
        ⟨rest, offset + byteLength ('\\' :: body)⟩ := by
  have hread := h (offset + '\\'.utf8Size)
  rw [readStringFrom]
  simp [hquote, advance, hread, EscapeReading.of, byteLength, Nat.add_assoc]

end Steps

/-- The rest of a literal, from behind any part of it. -/
theorem readStringFrom_escapeChars (style : QuoteStyle) (opening : Nat) (chars : List Char)
    (reversed tail : List Char) (offset : Nat) :
    readStringFrom style.quote opening reversed false
        ⟨escapeChars style.quote chars ++ style.quote :: tail, offset⟩ =
      .ok { kind := .string, value := String.ofList (reversed.reverse ++ chars) }
        ⟨tail, offset + byteLength (escapeChars style.quote chars ++ [style.quote])⟩ := by
  induction chars generalizing reversed offset with
  | nil =>
      rw [escapeChars, List.nil_append, readStringFrom_quote, List.append_nil]
      rfl
  | cons ch rest ih =>
      have hcases := @escapeChar_cases style ch _ _ (any_isDigit_escapeChars style rest tail)
      rw [escapeChars]
      rcases hcases with ⟨hwritten, hplain⟩ | ⟨body, hwritten, _, hread⟩
      · rw [hwritten, List.append_assoc, List.singleton_append, readStringFrom_plain hplain, ih]
        simp [byteLength, Nat.add_assoc]
      · have hmark : '\\' ≠ style.quote := by cases style <;> decide
        rw [hwritten, List.append_assoc, List.cons_append, readStringFrom_escape hmark hread, ih]
        simp [byteLength, byteLength_append, Nat.add_assoc]

theorem toList_quoted (style : QuoteStyle) (value : String) :
    (quoted style value).toList =
      style.quote :: (escapeChars style.quote value.toList ++ [style.quote]) := by
  simp [quoted]

theorem skip_quote (style : QuoteStyle) (tail : List Char) (offset : Nat) :
    Gap.skip .between false (style.quote :: tail) offset =
      .token ⟨style.quote :: tail, offset⟩ false := by
  cases style <;> rfl

theorem readToken_quote (style : QuoteStyle) (depths : List Nat) (tail : List Char)
    (offset : Nat) :
    readToken depths ⟨style.quote :: tail, offset⟩ =
      readString style.quote ⟨style.quote :: tail, offset⟩ := by
  cases style <;> rfl

namespace Scanner

/-- A scanner in front of a canonical literal reads the literal and nothing else. -/
theorem scan_of_quoted {s : Scanner} {value : String} {after : List Char}
    (h : s.token.next.rest = (quoted style value).toList ++ after) :
    s.scan.token.toLexeme = { kind := .string, value := value } ∧
      s.scan.token.start = s.token.next ∧ s.scan.error = s.error ∧
      s.token.next.Spans (quoted style value).toList s.scan.token.next ∧
      s.scan.token.next.rest = after := by
  obtain ⟨⟨⟨_, _, ⟨rest, offset⟩, _⟩, depths⟩, error⟩ := s
  rw [toList_quoted, List.cons_append, List.append_assoc, List.singleton_append] at h
  obtain rfl : rest = _ := h
  have hread := readStringFrom_escapeChars style offset value.toList [] after
    (offset + style.quote.utf8Size)
  unfold scan
  rw [skip_quote]
  dsimp only
  rw [readToken_quote, readString, advance]
  dsimp only
  rw [hread]
  refine ⟨by simp [Reading.ok], rfl, by simp [Reading.ok], ⟨?_, ?_⟩, rfl⟩
  · simp [toList_quoted, Reading.ok]
  · simp [toList_quoted, byteLength, Nat.add_assoc, Reading.ok]

/-- The canonical literal of a value, with any text behind it, scans as one string token with
just that value. -/
theorem scan_quoted (style : QuoteStyle) (value after : String) :
    let s := (ofString (quoted style value ++ after)).scan
    s.token.kind = .string ∧ s.token.text = quoted style value ∧ s.token.value = value ∧
      s.token.loneSurrogate = false ∧ s.error = none ∧ s.token.next.rest = after.toList := by
  intro s
  have hrest : (ofString (quoted style value ++ after)).token.next.rest =
      (quoted style value).toList ++ after.toList := String.toList_append
  obtain ⟨hlexeme, hstart, herror, hspans, hafter⟩ := scan_of_quoted hrest
  refine ⟨congrArg Lexeme.kind hlexeme, ?_, congrArg Lexeme.value hlexeme,
    congrArg Lexeme.loneSurrogate hlexeme, herror, hafter⟩
  calc s.token.text = String.ofList (s.token.start.charsTo s.token.next) := rfl
    _ = String.ofList (quoted style value).toList := by rw [hstart, hspans.charsTo]
    _ = quoted style value := String.ofList_toList

/-- A null character in front of a digit, which needs its long form. -/
example : (ofString (quoted .single "\x001" ++ "2")).scan.token.value = "\x001" := by
  decide +kernel

end Scanner
end Untangle
