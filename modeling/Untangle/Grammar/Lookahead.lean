import Untangle.Token.Scanner

/-!
# Looking ahead

Questions about the tokens that follow. Each is a function of the scanner and leaves it where it
is.
-/

namespace Untangle

/-- The contextual word `word`, spelled without escapes. -/
def Token.isContextual (t : Token) (word : String) : Bool :=
  t.kind == .identifier && !t.escaped && t.value == word

/-- A semicolon may be left out before this token. -/
def Token.endsStatement (t : Token) : Bool :=
  t.kind == .mark .semicolon || t.kind == .mark .closeBrace || t.kind == .endOfFile ||
    t.lineBreakBefore

def TokenKind.isName (k : TokenKind) : Bool :=
  k == .identifier || k.isKeyword

def TokenKind.startsPropertyName : TokenKind → Bool
  | .identifier | .string | .numeric | .bigInt | .mark .openBracket | .privateName => true
  | k => k.isKeyword

/-- Words that may be names even though they are keywords elsewhere. -/
def TokenKind.startsBindingName : TokenKind → Bool
  | .identifier | .word .«let» | .word .«yield» => true
  | _ => false

/-- Tokens after `yield` that leave it without an operand. -/
def TokenKind.endsYield : TokenKind → Bool
  | .mark .closeParen | .mark .closeBracket | .mark .closeBrace | .mark .comma
  | .mark .semicolon | .mark .colon | .word .«in» | .templateMiddle | .templateTail
  | .endOfFile => true
  | _ => false

def TokenKind.isUnaryOperator : TokenKind → Bool
  | .mark .not | .mark .complement | .mark .plus | .mark .minus
  | .word .«typeof» | .word .«void» | .word .«delete» => true
  | _ => false

namespace Scanner

def nextKind (s : Scanner) : TokenKind :=
  s.scan.token.kind

/-- An arrow follows on the same line. -/
def arrowFollows (s : Scanner) : Bool :=
  let next := s.scan.token
  next.kind == .mark .arrow && !next.lineBreakBefore

/-- Inside `depth` open parentheses: an arrow follows the one that closes them all. -/
def arrowAfterParens : (fuel depth : Nat) → Scanner → Bool
  | 0, _, _ => false
  | fuel + 1, depth, s =>
      let next := s.scan
      match next.token.kind with
      | .mark .openParen => arrowAfterParens fuel (depth + 1) next
      | .mark .closeParen =>
          if depth ≤ 1 then next.nextKind == .mark .arrow
          else arrowAfterParens fuel (depth - 1) next
      | .endOfFile | .unknown => false
      | _ => arrowAfterParens fuel depth next

/-- At an opening parenthesis: it starts the parameters of an arrow function. -/
def parametersFollow (s : Scanner) : Bool :=
  arrowAfterParens (s.token.next.rest.length + 1) 1 s

/-- At `async`: an arrow function starts here, its parameters on the same line. -/
def asyncArrowFollows (s : Scanner) : Bool :=
  let next := s.scan
  if next.token.lineBreakBefore then false
  else if next.token.kind.startsBindingName then next.arrowFollows
  else next.token.kind == .mark .openParen && next.parametersFollow

/-- At `async`: the word `function` follows on the same line. -/
def asyncFunctionFollows (s : Scanner) : Bool :=
  let next := s.scan.token
  next.kind == .word .«function» && !next.lineBreakBefore

/-- At `async` before a property: the word is a modifier. -/
def asyncModifies (s : Scanner) : Bool :=
  let next := s.scan.token
  !next.lineBreakBefore && (next.kind == .mark .times || next.kind.startsPropertyName)

/-- At `get` or `set` before a property: the word is a modifier. -/
def accessorFollows (s : Scanner) : Bool :=
  s.nextKind.startsPropertyName

/-- At `static` in a class: the word is a modifier. -/
def staticModifies (s : Scanner) : Bool :=
  let next := s.nextKind
  next == .mark .openBrace || next == .mark .times || next.startsPropertyName

/-- At `let`: a declaration follows. -/
def letDeclares (s : Scanner) : Bool :=
  let next := s.nextKind
  next.startsBindingName || next == .mark .openBracket || next == .mark .openBrace

end Scanner
end Untangle
