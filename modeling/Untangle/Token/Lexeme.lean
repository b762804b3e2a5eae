import Untangle.Token.Cursor
import Untangle.Token.Kind

/-!
# Lexemes

A lexeme is what the text of one token decodes to. Reading one yields the lexeme, the cursor
behind it, and an error when the text is malformed; the kind is then `unknown`.
-/

namespace Untangle

/-!
## Lexical errors

A lexical error is a cause and the byte offset at which it is reported.
-/

namespace LexicalError

inductive Cause
  | invalidCharacter (c : Char)
  | unterminatedComment
  | unterminatedString
  | unterminatedTemplate
  | unterminatedRegularExpression
  | digitExpected
  | hexDigitExpected
  | octalEscapeInTemplate
  | invalidUnicodeEscape
  | nameAfterNumber
  deriving Repr, DecidableEq

def Cause.message : Cause → String
  | invalidCharacter c => "Invalid character '" ++ c.toString ++ "'"
  | unterminatedComment => "'*/' expected"
  | unterminatedString => "Unterminated string literal"
  | unterminatedTemplate => "Unterminated template literal"
  | unterminatedRegularExpression => "Unterminated regular expression literal"
  | digitExpected => "Digit expected"
  | hexDigitExpected => "Hexadecimal digit expected"
  | octalEscapeInTemplate => "Octal escape sequences are not allowed in template strings"
  | invalidUnicodeEscape => "Invalid Unicode escape sequence"
  | nameAfterNumber => "An identifier or keyword cannot immediately follow a numeric literal"

end LexicalError

structure LexicalError where
  cause : LexicalError.Cause
  offset : Nat
  deriving Repr, DecidableEq

/-!
## Readings
-/

structure Lexeme where
  kind : TokenKind
  /-- The decoded value of strings, names and templates, and the text of numbers and regular
  expressions. -/
  value : String := ""
  number : Float := 0
  /-- The text of a template piece with its line ends normalized. -/
  raw : String := ""
  /-- A template piece with an escape that has no value. -/
  invalidEscape : Bool := false
  /-- An escape yielded an unpaired surrogate. -/
  loneSurrogate : Bool := false
  /-- A name spelled with escapes. -/
  escaped : Bool := false
  deriving Inhabited

structure Reading where
  lexeme : Lexeme
  next : Cursor
  error : Option LexicalError

namespace Reading

def ok (lexeme : Lexeme) (next : Cursor) : Reading :=
  ⟨lexeme, next, none⟩

def fail (cause : LexicalError.Cause) (offset : Nat) (next : Cursor) : Reading :=
  ⟨{ kind := .unknown }, next, some ⟨cause, offset⟩⟩

end Reading

end Untangle
