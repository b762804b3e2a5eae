import Untangle.Token.Escape
import Untangle.Token.Lexeme

/-!
# String, template and regular expression literals
-/

namespace Untangle

/-!
## Strings
-/

/-- The rest of a string literal. An unterminated literal is reported at its opening quote. -/
def readStringFrom (quote : Char) (opening : Nat) (reversed : List Char) (surrogate : Bool)
    (c : Cursor) : Reading :=
  let fail := fun (cause : LexicalError.Cause) (offset : Nat) (next : Cursor) =>
    (⟨{ kind := .unknown, loneSurrogate := surrogate }, next, some ⟨cause, offset⟩⟩ : Reading)
  match _hrest : c.rest with
  | [] => fail .unterminatedString opening c
  | ch :: _ =>
      if ch = quote then
        .ok
          { kind := .string
            value := String.ofList reversed.reverse
            loneSurrogate := surrogate }
          c.advance
      else if ch = '\n' ∨ ch = '\r' then fail .unterminatedString opening c
      else if ch = '\\' then
        match (readEscape false c.advance).error with
        | some error => fail error.cause error.offset (readEscape false c.advance).next
        | none =>
            readStringFrom quote opening
              ((readEscape false c.advance).char?.toList ++ reversed)
              (surrogate || (readEscape false c.advance).loneSurrogate)
              (readEscape false c.advance).next
      else readStringFrom quote opening (ch :: reversed) surrogate c.advance
termination_by c.rest.length
decreasing_by
  · have hne : c.rest ≠ [] := by simp [_hrest]
    exact (reaches_readEscape _ _).length_lt hne
  · have hne : c.rest ≠ [] := by simp [_hrest]
    exact Cursor.length_advance_lt hne

/-- A string literal, read from its opening quote. -/
def readString (quote : Char) (c : Cursor) : Reading :=
  readStringFrom quote c.offset [] false c.advance

/-!
## Templates
-/

/-- Every line end of a template piece counts as a line feed. -/
def normalizeLineEnds : List Char → List Char
  | [] => []
  | '\r' :: '\n' :: rest => '\n' :: normalizeLineEnds rest
  | '\r' :: rest => '\n' :: normalizeLineEnds rest
  | ch :: rest => ch :: normalizeLineEnds rest

/-- What has been decoded of a template piece. -/
structure TemplatePiece where
  reversed : List Char
  invalid : Bool
  surrogate : Bool

namespace TemplatePiece

def empty : TemplatePiece :=
  ⟨[], false, false⟩

def push (p : TemplatePiece) (ch : Char) : TemplatePiece :=
  { p with reversed := ch :: p.reversed }

/-- A malformed escape only deprives the piece of its value. -/
def pushEscape (p : TemplatePiece) (e : EscapeReading) : TemplatePiece :=
  { reversed := e.char?.toList ++ p.reversed
    invalid := p.invalid || e.error.isSome
    surrogate := p.surrogate || e.loneSurrogate }

def value (p : TemplatePiece) : String :=
  if p.invalid then "" else String.ofList p.reversed.reverse

def lexeme (p : TemplatePiece) (kind : TokenKind) (raw : List Char) : Lexeme :=
  { kind := kind
    value := p.value
    raw := String.ofList (normalizeLineEnds raw)
    invalidEscape := p.invalid
    loneSurrogate := p.surrogate }

end TemplatePiece

/-- The kinds of a piece that the closing backquote ends and of one that a substitution ends. -/
structure PieceKinds where
  finished : TokenKind
  unfinished : TokenKind

/-- The rest of a template piece whose content starts at `content`. -/
def readTemplateFrom (kinds : PieceKinds) (opening : Nat) (content : Cursor)
    (piece : TemplatePiece) (c : Cursor) : Reading :=
  match _hrest : c.rest with
  | [] =>
      ⟨{ kind := .unknown, loneSurrogate := piece.surrogate }, c,
        some ⟨.unterminatedTemplate, opening⟩⟩
  | ch :: rest =>
      if ch = '\x60' then .ok (piece.lexeme kinds.finished (content.charsTo c)) c.advance
      else if ch = '$' ∧ rest.head? = some '\x7b' then
        .ok (piece.lexeme kinds.unfinished (content.charsTo c)) (c.skip 2)
      else if ch = '\\' then
        readTemplateFrom kinds opening content
          (piece.pushEscape (readEscape true c.advance)) (readEscape true c.advance).next
      else if ch = '\r' ∧ rest.head? = some '\n' then
        readTemplateFrom kinds opening content (piece.push '\n') (c.skip 2)
      else if ch = '\r' then
        readTemplateFrom kinds opening content (piece.push '\n') c.advance
      else readTemplateFrom kinds opening content (piece.push ch) c.advance
termination_by c.rest.length
decreasing_by
  all_goals have hne : c.rest ≠ [] := by simp [_hrest]
  · exact (reaches_readEscape _ _).length_lt hne
  · exact (c.advance.reaches_skip 1).length_lt hne
  · exact Cursor.length_advance_lt hne
  · exact Cursor.length_advance_lt hne

/-- A template piece, read from the character that opens it. -/
def readTemplate (kinds : PieceKinds) (c : Cursor) : Reading :=
  readTemplateFrom kinds c.offset c.advance .empty c.advance

/-- The piece after a backquote. -/
def readTemplateStart (c : Cursor) : Reading :=
  readTemplate ⟨.wholeTemplate, .templateHead⟩ c

/-- The piece after the brace that closes a substitution. -/
def readTemplateContinuation (c : Cursor) : Reading :=
  readTemplate ⟨.templateTail, .templateMiddle⟩ c

/-!
## Regular expressions
-/

/-- The cursor behind the closing slash of a regular expression, which has no meaning inside a
character class; without one, the cursor at which the line ends. -/
def regularExpressionBody (inClass : Bool) : List Char → Nat → Except Cursor Cursor
  | [], offset => .error ⟨[], offset⟩
  | ch :: rest, offset =>
      let behind := offset + ch.utf8Size
      if Text.isLineBreak ch then .error ⟨ch :: rest, offset⟩
      else if ch = '\\' then
        match rest with
        | [] => .error ⟨[], behind⟩
        | escaped :: rest' =>
            if Text.isLineBreak escaped then .error ⟨rest, behind⟩
            else regularExpressionBody inClass rest' (behind + escaped.utf8Size)
      else if ch = '[' then regularExpressionBody true rest behind
      else if ch = ']' then regularExpressionBody false rest behind
      else if ch = '/' ∧ !inClass then .ok ⟨rest, behind⟩
      else regularExpressionBody inClass rest behind

/-- The cursor behind a regular expression with its flags, read from the opening slash. -/
def readRegularExpression (c : Cursor) : Except Cursor Cursor :=
  let body := c.advance
  (regularExpressionBody false body.rest body.offset).map (·.dropWhile Text.isIdentifierPart)

end Untangle
