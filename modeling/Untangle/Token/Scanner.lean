import Untangle.Token.Literal
import Untangle.Token.Name
import Untangle.Token.Numeral

/-!
# The scanner

The scanner turns source text into one token at a time. A slash is first read as a punctuator;
where an expression must start it is read again as a regular expression. A counter of open
braces for each template substitution tells the brace that closes it from all others.
-/

namespace Untangle

/-!
## Blank space and comments
-/

namespace Gap

inductive Mode
  | between
  | lineComment
  | blockComment (start : Cursor)

/-- Where the next token starts, or where an unterminated comment started and the text ended.
`lineBreak` tells whether a line ended on the way. -/
inductive End
  | token (start : Cursor) (lineBreak : Bool)
  | openComment (start stop : Cursor) (lineBreak : Bool)

/-- Skip blanks, line ends and comments. A line starting with `#!` at the very beginning of the
text is a comment. -/
def skip : Mode → Bool → List Char → Nat → End
  | .between, lineBreak, '/' :: '/' :: rest, offset =>
      skip .lineComment lineBreak rest (offset + 2)
  | .between, lineBreak, '/' :: '*' :: rest, offset =>
      skip (.blockComment ⟨'/' :: '*' :: rest, offset⟩) lineBreak rest (offset + 2)
  | .between, lineBreak, '#' :: '!' :: rest, 0 =>
      skip .lineComment lineBreak rest 2
  | .between, lineBreak, ch :: rest, offset =>
      if Text.isLineBreak ch then skip .between true rest (offset + ch.utf8Size)
      else if Text.isBlank ch then skip .between lineBreak rest (offset + ch.utf8Size)
      else .token ⟨ch :: rest, offset⟩ lineBreak
  | .lineComment, lineBreak, ch :: rest, offset =>
      if Text.isLineBreak ch then skip .between true rest (offset + ch.utf8Size)
      else skip .lineComment lineBreak rest (offset + ch.utf8Size)
  | .blockComment _, lineBreak, '*' :: '/' :: rest, offset =>
      skip .between lineBreak rest (offset + 2)
  | .blockComment start, lineBreak, ch :: rest, offset =>
      skip (.blockComment start) (lineBreak || Text.isLineBreak ch) rest (offset + ch.utf8Size)
  | .between, lineBreak, [], offset => .token ⟨[], offset⟩ lineBreak
  | .lineComment, lineBreak, [], offset => .token ⟨[], offset⟩ lineBreak
  | .blockComment start, lineBreak, [], offset => .openComment start ⟨[], offset⟩ lineBreak

end Gap

/-!
## Punctuators
-/

def startsWith : List Char → List Char → Bool
  | [], _ => true
  | _ :: _, [] => false
  | a :: as, b :: bs => a == b && startsWith as bs

/-- `a?.5:b` is a conditional, so `?.` is no punctuator before a digit. -/
def Punctuator.fits (p : Punctuator) (text : List Char) : Bool :=
  startsWith p.text.toList text &&
    !(p == .optionalDot && (text.drop 2).head?.any Char.isDigit)

def readPunctuator (c : Cursor) : Reading :=
  match Punctuator.longestFirst.find? (·.fits c.rest) with
  | some p => .ok { kind := .mark p } (c.skip p.text.length)
  | none => .fail (.invalidCharacter (c.head?.getD '\x00')) c.offset c

/-!
## Tokens
-/

/-- The token at a cursor that stands behind all blank space. `depths` holds the number of open
braces inside each enclosing template substitution, the innermost first. -/
def readToken (depths : List Nat) (c : Cursor) : Reading :=
  match c.rest with
  | [] => .ok { kind := .endOfFile } c
  | ch :: rest =>
      if ch = '"' ∨ ch = '\'' then readString ch c
      else if ch = '\x60' then readTemplateStart c
      else if ch.isDigit ∨ (ch = '.' ∧ rest.head?.any Char.isDigit) then readNumber c
      else if ch = '\x7d' ∧ depths.head? = some 0 then readTemplateContinuation c
      else if ch = '#' then readPrivateName c
      else if ch = '\\' ∨ Text.isIdentifierStart ch then readName c
      else readPunctuator c

/-- The brace counters after a token that starts at `c`. -/
def depthsAfter (depths : List Nat) (c : Cursor) (kind : TokenKind) : List Nat :=
  let outer := if c.head? = some '\x7d' ∧ depths.head? = some 0 then depths.tail else depths
  match kind, outer with
  | .templateHead, _ => 0 :: outer
  | .templateMiddle, _ => 0 :: outer
  | .mark .openBrace, depth :: rest => (depth + 1) :: rest
  | .mark .closeBrace, depth :: rest => (depth - 1) :: rest
  | _, _ => outer

structure Token extends Lexeme where
  /-- The cursors before and behind the token. -/
  start : Cursor
  next : Cursor
  lineBreakBefore : Bool
  deriving Inhabited

namespace Token

def text (t : Token) : String :=
  t.start.textTo t.next

end Token

/-!
## Scanning
-/

/-- All a scanner remembers besides a pending error. -/
structure Snapshot where
  token : Token
  depths : List Nat
  deriving Inhabited

/-- The first error that has not been taken stays pending. -/
structure Scanner extends Snapshot where
  error : Option LexicalError
  deriving Inhabited

namespace Scanner

def ofString (source : String) : Scanner :=
  let start := Cursor.ofString source
  { token := { kind := .unknown, start := start, next := start, lineBreakBefore := false }
    depths := []
    error := none }

def snapshot (s : Scanner) : Snapshot :=
  s.toSnapshot

/-- Go back to an earlier moment, the pending error excepted. -/
def restore (s : Scanner) (saved : Snapshot) : Scanner :=
  { s with toSnapshot := saved }

def takeError (s : Scanner) : Option LexicalError × Scanner :=
  (s.error, { s with error := none })

def scan (s : Scanner) : Scanner :=
  match Gap.skip .between false s.token.next.rest s.token.next.offset with
  | .openComment start stop lineBreak =>
      { token :=
          { kind := .unknown, start := start, next := stop, lineBreakBefore := lineBreak }
        depths := s.depths
        error := s.error <|> some ⟨.unterminatedComment, start.offset⟩ }
  | .token start lineBreak =>
      let reading := readToken s.depths start
      { token :=
          { reading.lexeme with
            start := start
            next := reading.next
            lineBreakBefore := lineBreak }
        depths := depthsAfter s.depths start reading.lexeme.kind
        error := s.error <|> reading.error }

/-- Read the current slash token again as a regular expression. -/
def rescanSlash (s : Scanner) : Scanner :=
  if s.token.kind = .mark .divide ∨ s.token.kind = .mark .divideAssign then
    match readRegularExpression s.token.start with
    | .ok next =>
        let token :=
          { s.token with
            kind := .regularExpression
            value := s.token.start.textTo next
            next := next }
        { s with token := token }
    | .error stop =>
        { s with
          token := { s.token with kind := .unknown, next := stop }
          error := s.error <|> some ⟨.unterminatedRegularExpression, s.token.start.offset⟩ }
  else s

end Scanner
end Untangle
