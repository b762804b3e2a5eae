import Untangle.Token.Scanner

/-!
# Scanning by slices

The same scanner for a source that can only be read in slices between byte positions. A slice
exists where both positions are character boundaries and the first does not lie behind the
second. Positions move by byte counts, and the scanner fails as soon as it asks for a slice that
does not exist. The length of the source bounds every loop.
-/

namespace Untangle
namespace Slicing

open Text

variable (source : String)

/-!
## Slices
-/

/-- The position at a byte, if a character starts or the source ends there. -/
def position? (n : Nat) : Option source.Pos :=
  if h : (⟨n⟩ : String.Pos.Raw).IsValid source then some ⟨⟨n⟩, h⟩ else none

def slice? (start stop : Nat) : Option String := do
  let p ← position? source start
  let q ← position? source stop
  (source.slice? p q).map String.Slice.copy

/-- The source from a byte on. -/
def from? (n : Nat) : Option (List Char) :=
  (slice? source n source.utf8ByteSize).map String.toList

def at? (n : Nat) : Option Cursor :=
  (from? source n).map fun rest => ⟨rest, n⟩

def current (n : Nat) : Option (Option Char) :=
  (from? source n).map List.head?

/-- Past one character; the end stays where it is. -/
def advance (n : Nat) : Option Nat :=
  (current source n).map fun ch? => ch?.elim n fun ch => n + ch.utf8Size

/-- More turns than any loop over the source takes. -/
def turns : Nat :=
  source.utf8ByteSize + 1

/-!
## Escape sequences
-/

def readDigits (radix : Nat) : (max : Nat) → (value count n : Nat) → Option (Nat × Nat × Cursor)
  | 0, value, count, n => return (value, count, ← at? source n)
  | max + 1, value, count, n => do
      match (← current source n).bind (digitValue? radix) with
      | some digit => readDigits radix max (radix * value + digit) (count + 1) (← advance source n)
      | none => return (value, count, ← at? source n)

def readCodeUnit (n : Nat) : Option (Option Nat × Cursor) := do
  let (value, count, next) ← readDigits source 16 4 0 0 n
  return (if count = 4 then some value else none, next)

def readBracedCodePoint (n : Nat) : Option (Option Nat × Cursor) := do
  let (value, count, next) ← readDigits source 16 6 0 0 n
  if count = 0 ∨ 0x10FFFF < value ∨ (← current source next.offset) ≠ some '\x7d' then
    return (none, next)
  else return (some value, ← at? source (← advance source next.offset))

def readUnicodeEscape (n : Nat) : Option (Option Nat × Cursor) := do
  if (← current source n) = some '\x7b' then readBracedCodePoint source (← advance source n)
  else readCodeUnit source n

def readLowSurrogate (n : Nat) : Option (Option (Nat × Cursor)) := do
  match ← from? source n with
  | '\\' :: 'u' :: _ =>
      match ← readCodeUnit source (n + 2) with
      | (some low, next) => return if isLowSurrogate low then some (low, next) else none
      | (none, _) => return none
  | _ => return none

def readCodePoint (code n : Nat) : Option EscapeReading := do
  let pair ← if isHighSurrogate code then readLowSurrogate source n else pure none
  match pair with
  | some (low, behind) => return .of (charOfCode? (combineSurrogates code low)) behind
  | none =>
      let next ← at? source n
      match charOfCode? code with
      | some ch => return .of (some ch) next
      | none => return ⟨some '\ufffd', true, next, none⟩

def readOctalEscape (first n : Nat) : Option EscapeReading := do
  let (value, _, next) ← readDigits source 8 (if first ≤ 3 then 2 else 1) first 1 n
  return .of (charOfCode? value) next

def readHexEscape (n : Nat) : Option EscapeReading := do
  let (value, count, next) ← readDigits source 16 2 0 0 n
  return if count = 2 then .of (charOfCode? value) next
    else .fail .hexDigitExpected next.offset next

def readLineContinuation (ch : Char) (n : Nat) : Option EscapeReading := do
  if ch = '\r' ∧ (← current source n) = some '\n' then
    return .of none (← at? source (← advance source n))
  else return .of none (← at? source n)

def readCodePointEscape (n : Nat) : Option EscapeReading := do
  let (code?, next) ← readUnicodeEscape source n
  match code? with
  | some code => readCodePoint source code next.offset
  | none => return .fail .hexDigitExpected next.offset next

def readEscapeAfter (inTemplate : Bool) (ch : Char) (offset n : Nat) : Option EscapeReading := do
  if (singleEscape? ch).isSome then return .of (singleEscape? ch) (← at? source n)
  else if ch = '0' ∧ (← current source n).any Char.isDigit = false then
    return .of (some '\x00') (← at? source n)
  else if ch.isDigit ∧ inTemplate then
    return .fail .octalEscapeInTemplate offset (← at? source n)
  else if isOctalDigit ch then readOctalEscape source (ch.toNat - '0'.toNat) n
  else if ch = 'x' then readHexEscape source n
  else if ch = 'u' then readCodePointEscape source n
  else if isLineBreak ch then readLineContinuation source ch n
  else return .of (some ch) (← at? source n)

def readEscape (inTemplate : Bool) (n : Nat) : Option EscapeReading := do
  match ← current source n with
  | none => return .fail .unterminatedString n (← at? source n)
  | some ch => readEscapeAfter source inTemplate ch n (← advance source n)

/-!
## Strings, templates and regular expressions
-/

def readStringFrom (quote : Char) (opening : Nat) :
    (turns : Nat) → List Char → Bool → Nat → Option Reading
  | 0, _, _, _ => none
  | turns + 1, reversed, surrogate, n => do
      let fail := fun (cause : LexicalError.Cause) (offset : Nat) (next : Cursor) =>
        (⟨{ kind := .unknown, loneSurrogate := surrogate }, next, some ⟨cause, offset⟩⟩ : Reading)
      match ← current source n with
      | none => return fail .unterminatedString opening (← at? source n)
      | some ch =>
          if ch = quote then
            return .ok
              { kind := .string
                value := String.ofList reversed.reverse
                loneSurrogate := surrogate }
              (← at? source (← advance source n))
          else if ch = '\n' ∨ ch = '\r' then
            return fail .unterminatedString opening (← at? source n)
          else if ch = '\\' then
            let e ← readEscape source false (← advance source n)
            match e.error with
            | some error => return fail error.cause error.offset e.next
            | none =>
                readStringFrom quote opening turns (e.char?.toList ++ reversed)
                  (surrogate || e.loneSurrogate) e.next.offset
          else readStringFrom quote opening turns (ch :: reversed) surrogate (← advance source n)

def readString (quote : Char) (n : Nat) : Option Reading := do
  readStringFrom source quote n (turns source) [] false (← advance source n)

/-- The text of a piece is cut out between the start of its content and its end. -/
def readTemplateFrom (kinds : PieceKinds) (opening content : Nat) :
    (turns : Nat) → TemplatePiece → Nat → Option Reading
  | 0, _, _ => none
  | turns + 1, piece, n => do
      match ← from? source n with
      | [] =>
          return ⟨{ kind := .unknown, loneSurrogate := piece.surrogate }, ← at? source n,
            some ⟨.unterminatedTemplate, opening⟩⟩
      | ch :: rest =>
          if ch = '\x60' then
            let raw ← slice? source content n
            return .ok (piece.lexeme kinds.finished raw.toList)
              (← at? source (← advance source n))
          else if ch = '$' ∧ rest.head? = some '\x7b' then
            let raw ← slice? source content n
            return .ok (piece.lexeme kinds.unfinished raw.toList) (← at? source (n + 2))
          else if ch = '\\' then
            let e ← readEscape source true (← advance source n)
            readTemplateFrom kinds opening content turns (piece.pushEscape e) e.next.offset
          else if ch = '\r' ∧ rest.head? = some '\n' then
            readTemplateFrom kinds opening content turns (piece.push '\n')
              (← advance source (← advance source n))
          else if ch = '\r' then
            readTemplateFrom kinds opening content turns (piece.push '\n') (← advance source n)
          else readTemplateFrom kinds opening content turns (piece.push ch) (← advance source n)

def readTemplate (kinds : PieceKinds) (n : Nat) : Option Reading := do
  let content ← advance source n
  readTemplateFrom source kinds n content (turns source) .empty content

def dropWhile (p : Char → Bool) : (turns : Nat) → Nat → Option Cursor
  | 0, _ => none
  | turns + 1, n => do
      if (← current source n).any p then dropWhile p turns (← advance source n)
      else at? source n

def regularExpressionBody : (turns : Nat) → Bool → Nat → Option (Except Cursor Cursor)
  | 0, _, _ => none
  | turns + 1, inClass, n => do
      match ← current source n with
      | none => return .error (← at? source n)
      | some ch =>
          if isLineBreak ch then return .error (← at? source n)
          else
            let behind ← advance source n
            if ch = '\\' then
              match ← current source behind with
              | none => return .error (← at? source behind)
              | some escaped =>
                  if isLineBreak escaped then return .error (← at? source behind)
                  else regularExpressionBody turns inClass (← advance source behind)
            else if ch = '[' then regularExpressionBody turns true behind
            else if ch = ']' then regularExpressionBody turns false behind
            else if ch = '/' ∧ !inClass then return .ok (← at? source behind)
            else regularExpressionBody turns inClass behind

/-- Read from the opening slash, which is a single byte. -/
def readRegularExpression (n : Nat) : Option (Except Cursor Cursor) := do
  match ← regularExpressionBody source (turns source) false (n + 1) with
  | .ok body => return .ok (← dropWhile source isIdentifierPart (turns source) body.offset)
  | .error stop => return .error stop

/-!
## Numbers
-/

def decimalRun : (turns : Nat) → List Char → Nat → Option (List Char × Cursor)
  | 0, _, _ => none
  | turns + 1, reversed, n => do
      match ← from? source n with
      | [] => return (reversed.reverse, ← at? source n)
      | ch :: rest =>
          if ch.isDigit then decimalRun turns (ch :: reversed) (← advance source n)
          else if ch = '_' ∧ rest.head?.any Char.isDigit then
            decimalRun turns reversed (← advance source n)
          else return (reversed.reverse, ← at? source n)

def radixRun (radix : Nat) : (turns : Nat) → List Nat → Nat → Option (List Nat × Cursor)
  | 0, _, _ => none
  | turns + 1, reversed, n => do
      match ← current source n with
      | none => return (reversed.reverse, ← at? source n)
      | some ch =>
          if ch = '_' ∧ reversed ≠ [] then radixRun radix turns reversed (← advance source n)
          else
            match digitValue? radix ch with
            | some digit => radixRun radix turns (digit :: reversed) (← advance source n)
            | none => return (reversed.reverse, ← at? source n)

def readRadixNumeral (radix n : Nat) : Option NumeralReading := do
  let (digits, next) ← radixRun source radix (turns source) [] (n + 2)
  return if digits.isEmpty then .digitExpected next
    else .value (Number.radixValue radix digits) true next

def readLeadingZero (n : Nat) : Option NumeralReading := do
  let next ← dropWhile source Char.isDigit (turns source) n
  let digits := (← slice? source n next.offset).toList
  let number :=
    if digits.all isOctalDigit then
      Number.radixValue 8 (digits.filterMap (digitValue? 8))
    else
      Number.Decimal.toFloat ⟨digits, 0⟩
  return .value number false next

/-- Past one character, if it is there to be passed. -/
def advanceIf (passes : Bool) (n : Nat) : Option Nat :=
  if passes then advance source n else some n

def readExponent (n : Nat) : Option (Option (Int × Cursor)) := do
  let sign ← current source n
  let negative := sign == some '-'
  let digitsAt ← advanceIf source (negative || sign == some '+') n
  if (← current source digitsAt).any Char.isDigit then
    let (digits, next) ← decimalRun source (turns source) [] digitsAt
    let value : Int := Number.digitsValue digits
    return some (if negative then -value else value, next)
  else return none

def readFraction (hasPoint : Bool) (whole : Cursor) : Option (List Char × Cursor) := do
  if hasPoint then decimalRun source (turns source) [] (← advance source whole.offset)
  else return ([], whole)

/-- The numeral is cut out before its value is computed. -/
def readDecimalNumeral (n : Nat) : Option NumeralReading := do
  let (whole, afterWhole) ← decimalRun source (turns source) [] n
  let hasPoint := (← current source afterWhole.offset) == some '.'
  let (fraction, afterFraction) ← readFraction source hasPoint afterWhole
  let scale : Int := -(fraction.length : Int)
  let letter ← current source afterFraction.offset
  if letter = some 'e' ∨ letter = some 'E' then
    match ← readExponent source (← advance source afterFraction.offset) with
    | some (exponent, next) =>
        let _ ← slice? source n next.offset
        return .value (Number.Decimal.toFloat ⟨whole ++ fraction, scale + exponent⟩) false next
    | none => return .digitExpected afterFraction
  else
    let _ ← slice? source n afterFraction.offset
    return .value (Number.Decimal.toFloat ⟨whole ++ fraction, scale⟩) (!hasPoint) afterFraction

def readNumeral (n : Nat) : Option NumeralReading := do
  let rest ← from? source n
  match radixOf? rest with
  | some radix => readRadixNumeral source radix n
  | none =>
      if rest.head? = some '0' ∧ rest.tail.head?.any Char.isDigit then readLeadingZero source n
      else readDecimalNumeral source n

def readNumber (n : Nat) : Option Reading := do
  match ← readNumeral source n with
  | .digitExpected next => return .fail .digitExpected next.offset next
  | .value number integer behind =>
      let isBig := integer && (← current source behind.offset) == some 'n'
      let next ← advanceIf source isBig behind.offset
      if (← current source next).any fun ch => isIdentifierStart ch || ch.isDigit then
        return .fail .nameAfterNumber next (← at? source next)
      else
        return .ok
          { kind := if isBig then .bigInt else .numeric
            value := ← slice? source n next
            number := number }
          (← at? source next)

/-!
## Names and punctuators
-/

def readNameFrom : (turns : Nat) → PartialName → Nat → Option Reading
  | 0, _, _ => none
  | turns + 1, name, n => do
      match ← from? source n with
      | [] => return name.finish (← at? source n)
      | ch :: rest =>
          if ch = '\\' then
            if rest.head? = some 'u' then
              let (code?, next) ← readUnicodeEscape source (n + 2)
              match (code?.bind charOfCode?).filter name.accepts with
              | some decoded => readNameFrom turns (name.pushEscaped decoded) next.offset
              | none => return name.fail .invalidUnicodeEscape n next
            else return name.fail (.invalidCharacter '\\') n (← at? source n)
          else if name.accepts ch then readNameFrom turns (name.push ch) (← advance source n)
          else return name.finish (← at? source n)

def readPrivateName (n : Nat) : Option Reading := do
  let behind ← advance source n
  if (← current source behind).any fun ch => ch == '\\' || isIdentifierStart ch then
    let reading ← readNameFrom source (turns source) .empty behind
    return if reading.error.isSome then reading
      else { reading with lexeme := { reading.lexeme with kind := .privateName } }
  else return .fail (.invalidCharacter '#') n (← at? source behind)

/-- A punctuator is passed by the bytes of its text. -/
def readPunctuator (n : Nat) : Option Reading := do
  let rest ← from? source n
  match Punctuator.longestFirst.find? (·.fits rest) with
  | some p => return .ok { kind := .mark p } (← at? source (n + p.text.utf8ByteSize))
  | none => return .fail (.invalidCharacter (rest.head?.getD '\x00')) n (← at? source n)

/-!
## Tokens
-/

def skip : (turns : Nat) → Gap.Mode → Bool → Nat → Option Gap.End
  | 0, _, _, _ => none
  | turns + 1, .between, lineBreak, n => do
      match ← from? source n, n with
      | '/' :: '/' :: _, _ => skip turns .lineComment lineBreak (n + 2)
      | '/' :: '*' :: _, _ => skip turns (.blockComment (← at? source n)) lineBreak (n + 2)
      | '#' :: '!' :: _, 0 => skip turns .lineComment lineBreak 2
      | ch :: _, _ =>
          if isLineBreak ch then skip turns .between true (← advance source n)
          else if isBlank ch then skip turns .between lineBreak (← advance source n)
          else return .token (← at? source n) lineBreak
      | [], _ => return .token (← at? source n) lineBreak
  | turns + 1, .lineComment, lineBreak, n => do
      match ← current source n with
      | some ch =>
          if isLineBreak ch then skip turns .between true (← advance source n)
          else skip turns .lineComment lineBreak (← advance source n)
      | none => return .token (← at? source n) lineBreak
  | turns + 1, .blockComment start, lineBreak, n => do
      match ← from? source n with
      | '*' :: '/' :: _ => skip turns .between lineBreak (n + 2)
      | ch :: _ =>
          skip turns (.blockComment start) (lineBreak || isLineBreak ch) (← advance source n)
      | [] => return .openComment start (← at? source n) lineBreak

def readToken (depths : List Nat) (n : Nat) : Option Reading := do
  match ← from? source n with
  | [] => return .ok { kind := .endOfFile } (← at? source n)
  | ch :: rest =>
      if ch = '"' ∨ ch = '\'' then readString source ch n
      else if ch = '\x60' then readTemplate source ⟨.wholeTemplate, .templateHead⟩ n
      else if ch.isDigit ∨ (ch = '.' ∧ rest.head?.any Char.isDigit) then readNumber source n
      else if ch = '\x7d' ∧ depths.head? = some 0 then
        readTemplate source ⟨.templateTail, .templateMiddle⟩ n
      else if ch = '#' then readPrivateName source n
      else if ch = '\\' ∨ isIdentifierStart ch then readNameFrom source (turns source) .empty n
      else readPunctuator source n

/-- Only the byte at which the last token ended is known of the past. -/
def scan (s : Scanner) : Option Scanner := do
  match ← skip source (turns source) .between false s.token.next.offset with
  | .openComment start stop lineBreak =>
      return {
        token :=
          { kind := .unknown, start := start, next := stop, lineBreakBefore := lineBreak }
        depths := s.depths
        error := s.error <|> some ⟨.unterminatedComment, start.offset⟩ }
  | .token start lineBreak =>
      let reading ← readToken source s.depths start.offset
      return {
        token :=
          { reading.lexeme with
            start := start
            next := reading.next
            lineBreakBefore := lineBreak }
        depths := depthsAfter s.depths start reading.lexeme.kind
        error := s.error <|> reading.error }

def rescanSlash (s : Scanner) : Option Scanner := do
  if s.token.kind = .mark .divide ∨ s.token.kind = .mark .divideAssign then
    match ← readRegularExpression source s.token.start.offset with
    | .ok next =>
        let token :=
          { s.token with
            kind := .regularExpression
            value := ← slice? source s.token.start.offset next.offset
            next := next }
        return { s with token := token }
    | .error stop =>
        return { s with
          token := { s.token with kind := .unknown, next := stop }
          error := s.error <|> some ⟨.unterminatedRegularExpression, s.token.start.offset⟩ }
  else return s

/-- The text of the current token. -/
def text (s : Scanner) : Option String :=
  slice? source s.token.start.offset s.token.next.offset

end Slicing
end Untangle
