import Untangle.Text.CharClass
import Untangle.Token.Cursor
import Untangle.Token.Lexeme

/-!
# Escape sequences

An escape is read from just after its backslash and stands for at most one character. A lone
surrogate has no character of its own and is decoded as U+FFFD.
-/

namespace Untangle

/-!
## Digits
-/

/-- Up to `max` digits of the given radix: their value and their number. -/
def readDigits (radix : Nat) : (max : Nat) → (value count : Nat) → Cursor → Nat × Nat × Cursor
  | 0, value, count, c => (value, count, c)
  | max + 1, value, count, c =>
      match c.head?.bind (Text.digitValue? radix) with
      | some digit => readDigits radix max (radix * value + digit) (count + 1) c.advance
      | none => (value, count, c)

theorem reaches_readDigits (radix max value count : Nat) (c : Cursor) :
    c.Reaches (readDigits radix max value count c).2.2 := by
  induction max generalizing value count c with
  | zero => exact .refl c
  | succ max ih =>
      unfold readDigits
      split
      · exact c.reaches_advance.trans (ih _ _ _)
      · exact .refl c

/-!
## Unicode escapes
-/

/-- Four hexadecimal digits. -/
def readCodeUnit (c : Cursor) : Option Nat × Cursor :=
  let (value, count, next) := readDigits 16 4 0 0 c
  (if count = 4 then some value else none, next)

/-- One to six hexadecimal digits and the brace that closes them. -/
def readBracedCodePoint (c : Cursor) : Option Nat × Cursor :=
  let (value, count, next) := readDigits 16 6 0 0 c
  if count = 0 ∨ 0x10FFFF < value ∨ next.head? ≠ some '\x7d' then (none, next)
  else (some value, next.advance)

/-- The code point of an escape, read from just after its `u`. Without a value the cursor stands
where reading stopped. -/
def readUnicodeEscape (c : Cursor) : Option Nat × Cursor :=
  if c.head? = some '\x7b' then readBracedCodePoint c.advance else readCodeUnit c

theorem reaches_readCodeUnit (c : Cursor) : c.Reaches (readCodeUnit c).2 :=
  reaches_readDigits 16 4 0 0 c

theorem reaches_readBracedCodePoint (c : Cursor) : c.Reaches (readBracedCodePoint c).2 := by
  have h := reaches_readDigits 16 6 0 0 c
  unfold readBracedCodePoint
  dsimp only
  split
  · exact h
  · exact h.trans (Cursor.reaches_advance _)

theorem reaches_readUnicodeEscape (c : Cursor) : c.Reaches (readUnicodeEscape c).2 := by
  unfold readUnicodeEscape
  split
  · exact c.reaches_advance.trans (reaches_readBracedCodePoint _)
  · exact reaches_readCodeUnit c

/-!
## Surrogates
-/

def isHighSurrogate (code : Nat) : Bool :=
  0xD800 ≤ code && code ≤ 0xDBFF

def isLowSurrogate (code : Nat) : Bool :=
  0xDC00 ≤ code && code ≤ 0xDFFF

def combineSurrogates (high low : Nat) : Nat :=
  0x10000 + (high - 0xD800) * 0x400 + (low - 0xDC00)

/-- The character of a code point, unless it is a surrogate or out of range. -/
def charOfCode? (code : Nat) : Option Char :=
  if h : code.isValidChar then some (Char.ofNatAux code h) else none

/-- The low surrogate escape that directly follows, if there is one. -/
def readLowSurrogate (c : Cursor) : Option (Nat × Cursor) :=
  match c.rest with
  | '\\' :: 'u' :: _ =>
      match readCodeUnit (c.skip 2) with
      | (some low, next) => if isLowSurrogate low then some (low, next) else none
      | (none, _) => none
  | _ => none

theorem reaches_readLowSurrogate {c next : Cursor} {low : Nat}
    (h : readLowSurrogate c = some (low, next)) : c.Reaches next := by
  unfold readLowSurrogate at h
  have hunit := reaches_readCodeUnit (c.skip 2)
  split at h
  · split at h
    · rename_i value stop heq
      rw [heq] at hunit
      split at h
      · cases h
        exact (c.reaches_skip 2).trans hunit
      · cases h
    · cases h
  · cases h

/-!
## Escapes
-/

/-- The character an escape stands for, if it has one, and the cursor behind it. -/
structure EscapeReading where
  char? : Option Char
  loneSurrogate : Bool
  next : Cursor
  error : Option LexicalError

namespace EscapeReading

def of (char? : Option Char) (next : Cursor) : EscapeReading :=
  ⟨char?, false, next, none⟩

def fail (cause : LexicalError.Cause) (offset : Nat) (next : Cursor) : EscapeReading :=
  ⟨none, false, next, some ⟨cause, offset⟩⟩

/-- A code point, with a high surrogate joined to a low one that follows it. -/
def ofCodePoint (code : Nat) (next : Cursor) : EscapeReading :=
  let pair := if isHighSurrogate code then readLowSurrogate next else none
  match pair with
  | some (low, behind) => of (charOfCode? (combineSurrogates code low)) behind
  | none =>
      match charOfCode? code with
      | some ch => of (some ch) next
      | none => ⟨some '\ufffd', true, next, none⟩

end EscapeReading

/-- Two or three octal digits, of which the first has the value `first`. -/
def readOctalEscape (first : Nat) (c : Cursor) : EscapeReading :=
  let (value, _, next) := readDigits 8 (if first ≤ 3 then 2 else 1) first 1 c
  .of (charOfCode? value) next

def readHexEscape (c : Cursor) : EscapeReading :=
  let (value, count, next) := readDigits 16 2 0 0 c
  if count = 2 then .of (charOfCode? value) next
  else .fail .hexDigitExpected next.offset next

/-- A line break after the backslash continues the literal on the next line. -/
def readLineContinuation (ch : Char) (next : Cursor) : EscapeReading :=
  .of none (if ch = '\r' ∧ next.head? = some '\n' then next.advance else next)

def readCodePointEscape (c : Cursor) : EscapeReading :=
  let (code?, next) := readUnicodeEscape c
  match code? with
  | some code => .ofCodePoint code next
  | none => .fail .hexDigitExpected next.offset next

/-- The escapes of one letter. -/
def singleEscape? (ch : Char) : Option Char :=
  if ch = 'n' then some '\n'
  else if ch = 't' then some '\t'
  else if ch = 'r' then some '\r'
  else if ch = 'b' then some '\x08'
  else if ch = 'f' then some '\x0c'
  else if ch = 'v' then some '\x0b'
  else none

/-- The escape that starts with `ch` at `offset` and goes on at `next`. -/
def readEscapeAfter (inTemplate : Bool) (ch : Char) (offset : Nat) (next : Cursor) :
    EscapeReading :=
  if (singleEscape? ch).isSome then .of (singleEscape? ch) next
  else if ch = '0' ∧ next.head?.any Char.isDigit = false then .of (some '\x00') next
  else if ch.isDigit ∧ inTemplate then .fail .octalEscapeInTemplate offset next
  else if Text.isOctalDigit ch then readOctalEscape (ch.toNat - '0'.toNat) next
  else if ch = 'x' then readHexEscape next
  else if ch = 'u' then readCodePointEscape next
  else if Text.isLineBreak ch then readLineContinuation ch next
  else .of (some ch) next

/-- The escape whose backslash lies just before the cursor. Templates admit no octal escapes. -/
def readEscape (inTemplate : Bool) (c : Cursor) : EscapeReading :=
  match c.head? with
  | none => .fail .unterminatedString c.offset c
  | some ch => readEscapeAfter inTemplate ch c.offset c.advance

/-!
## Progress
-/

theorem EscapeReading.reaches_ofCodePoint (code : Nat) (c : Cursor) :
    c.Reaches (EscapeReading.ofCodePoint code c).next := by
  unfold EscapeReading.ofCodePoint
  dsimp only
  split
  · rename_i low behind heq
    split at heq
    · exact reaches_readLowSurrogate heq
    · cases heq
  · split <;> exact .refl c

theorem reaches_readOctalEscape (first : Nat) (c : Cursor) :
    c.Reaches (readOctalEscape first c).next :=
  reaches_readDigits 8 _ first 1 c

theorem reaches_readHexEscape (c : Cursor) : c.Reaches (readHexEscape c).next := by
  have h := reaches_readDigits 16 2 0 0 c
  unfold readHexEscape
  dsimp only
  split <;> exact h

theorem reaches_readLineContinuation (ch : Char) (c : Cursor) :
    c.Reaches (readLineContinuation ch c).next := by
  unfold readLineContinuation EscapeReading.of
  dsimp only
  split
  · exact c.reaches_advance
  · exact .refl c

theorem reaches_readCodePointEscape (c : Cursor) : c.Reaches (readCodePointEscape c).next := by
  have h := reaches_readUnicodeEscape c
  unfold readCodePointEscape
  dsimp only
  split
  · exact h.trans (EscapeReading.reaches_ofCodePoint _ _)
  · exact h

theorem reaches_readEscapeAfter (inTemplate : Bool) (ch : Char) (offset : Nat) (c : Cursor) :
    c.Reaches (readEscapeAfter inTemplate ch offset c).next := by
  unfold readEscapeAfter
  split
  · exact .refl c
  split
  · exact .refl c
  split
  · exact .refl c
  split
  · exact reaches_readOctalEscape _ c
  split
  · exact reaches_readHexEscape c
  split
  · exact reaches_readCodePointEscape c
  split
  · exact reaches_readLineContinuation ch c
  · exact .refl c

theorem reaches_readEscape (inTemplate : Bool) (c : Cursor) :
    c.Reaches (readEscape inTemplate c).next := by
  unfold readEscape
  split
  · exact .refl c
  · exact c.reaches_advance.trans (reaches_readEscapeAfter _ _ _ _)

end Untangle
