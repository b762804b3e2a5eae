/-!
# Token kinds

Punctuators and keywords have one spelling each. The remaining kinds are classes of tokens whose
text varies. Kinds double as the operators of expression nodes.
-/

namespace Untangle

/-!
## Punctuators
-/

inductive Punctuator
  | openBrace | closeBrace | openParen | closeParen | openBracket | closeBracket
  | dot | ellipsis | optionalDot | semicolon | comma | question | colon | arrow
  | less | greater | lessEqual | greaterEqual
  | equal | notEqual | strictEqual | strictNotEqual
  | plus | minus | times | power | divide | modulo | increment | decrement
  | shiftLeft | shiftRight | shiftRightUnsigned
  | bitAnd | bitOr | bitXor | not | complement
  | and | or | coalesce
  | assign | plusAssign | minusAssign | timesAssign | powerAssign | divideAssign | moduloAssign
  | shiftLeftAssign | shiftRightAssign | shiftRightUnsignedAssign
  | bitAndAssign | bitOrAssign | bitXorAssign
  | andAssign | orAssign | coalesceAssign
  deriving Repr, DecidableEq, Inhabited

namespace Punctuator

def text : Punctuator → String
  | openBrace => "\x7b"
  | closeBrace => "\x7d"
  | openParen => "("
  | closeParen => ")"
  | openBracket => "["
  | closeBracket => "]"
  | dot => "."
  | ellipsis => "..."
  | optionalDot => "?."
  | semicolon => ";"
  | comma => ","
  | question => "?"
  | colon => ":"
  | arrow => "=>"
  | less => "<"
  | greater => ">"
  | lessEqual => "<="
  | greaterEqual => ">="
  | equal => "=="
  | notEqual => "!="
  | strictEqual => "==="
  | strictNotEqual => "!=="
  | plus => "+"
  | minus => "-"
  | times => "*"
  | power => "**"
  | divide => "/"
  | modulo => "%"
  | increment => "++"
  | decrement => "--"
  | shiftLeft => "<<"
  | shiftRight => ">>"
  | shiftRightUnsigned => ">>>"
  | bitAnd => "&"
  | bitOr => "|"
  | bitXor => "^"
  | not => "!"
  | complement => "~"
  | and => "&&"
  | or => "||"
  | coalesce => "??"
  | assign => "="
  | plusAssign => "+="
  | minusAssign => "-="
  | timesAssign => "*="
  | powerAssign => "**="
  | divideAssign => "/="
  | moduloAssign => "%="
  | shiftLeftAssign => "<<="
  | shiftRightAssign => ">>="
  | shiftRightUnsignedAssign => ">>>="
  | bitAndAssign => "&="
  | bitOrAssign => "|="
  | bitXorAssign => "^="
  | andAssign => "&&="
  | orAssign => "||="
  | coalesceAssign => "??="

/-- Every punctuator, longer spellings before shorter ones. -/
def longestFirst : List Punctuator :=
  [shiftRightUnsignedAssign,
   ellipsis, strictEqual, strictNotEqual, powerAssign, shiftLeftAssign, shiftRightAssign,
   shiftRightUnsigned, andAssign, orAssign, coalesceAssign,
   optionalDot, arrow, equal, notEqual, lessEqual, greaterEqual, power, increment, decrement,
   shiftLeft, shiftRight, and, or, coalesce, plusAssign, minusAssign, timesAssign,
   divideAssign, moduloAssign, bitAndAssign, bitOrAssign, bitXorAssign,
   openBrace, closeBrace, openParen, closeParen, openBracket, closeBracket, dot, semicolon,
   comma, question, colon, less, greater, assign, plus, minus, times, divide, modulo, bitAnd,
   bitOr, bitXor, not, complement]

/-- The binary operator that a compound assignment applies. -/
def compoundBase? : Punctuator → Option Punctuator
  | plusAssign => some plus
  | minusAssign => some minus
  | timesAssign => some times
  | powerAssign => some power
  | divideAssign => some divide
  | moduloAssign => some modulo
  | shiftLeftAssign => some shiftLeft
  | shiftRightAssign => some shiftRight
  | shiftRightUnsignedAssign => some shiftRightUnsigned
  | bitAndAssign => some bitAnd
  | bitOrAssign => some bitOr
  | bitXorAssign => some bitXor
  | andAssign => some and
  | orAssign => some or
  | coalesceAssign => some coalesce
  | _ => none

def isAssignment (p : Punctuator) : Bool :=
  p == assign || p.compoundBase?.isSome

end Punctuator

/-!
## Keywords
-/

inductive Keyword
  | «break» | «case» | «catch» | «const» | «continue» | «debugger» | «default» | «delete»
  | «do» | «else» | «false» | «finally» | «for» | «function» | «if» | «in» | «instanceof»
  | «let» | «new» | «null» | «return» | «switch» | «this» | «throw» | «true» | «try»
  | «typeof» | «var» | «void» | «while» | «class» | «enum» | «export» | «extends»
  | «import» | «super» | «with» | «yield»
  deriving Repr, DecidableEq, Inhabited

namespace Keyword

def text : Keyword → String
  | «break» => "break"
  | «case» => "case"
  | «catch» => "catch"
  | «const» => "const"
  | «continue» => "continue"
  | «debugger» => "debugger"
  | «default» => "default"
  | «delete» => "delete"
  | «do» => "do"
  | «else» => "else"
  | «false» => "false"
  | «finally» => "finally"
  | «for» => "for"
  | «function» => "function"
  | «if» => "if"
  | «in» => "in"
  | «instanceof» => "instanceof"
  | «let» => "let"
  | «new» => "new"
  | «null» => "null"
  | «return» => "return"
  | «switch» => "switch"
  | «this» => "this"
  | «throw» => "throw"
  | «true» => "true"
  | «try» => "try"
  | «typeof» => "typeof"
  | «var» => "var"
  | «void» => "void"
  | «while» => "while"
  | «class» => "class"
  | «enum» => "enum"
  | «export» => "export"
  | «extends» => "extends"
  | «import» => "import"
  | «super» => "super"
  | «with» => "with"
  | «yield» => "yield"

def all : List Keyword :=
  [«break», «case», «catch», «const», «continue», «debugger», «default», «delete», «do», «else»,
   «false», «finally», «for», «function», «if», «in», «instanceof», «let», «new», «null»,
   «return», «switch», «this», «throw», «true», «try», «typeof», «var», «void», «while»,
   «class», «enum», «export», «extends», «import», «super», «with», «yield»]

def ofText? (text : String) : Option Keyword :=
  all.find? fun k => k.text == text

end Keyword

/-!
## Kinds
-/

inductive TokenKind
  | unknown
  | endOfFile
  | numeric
  | string
  | bigInt
  | regularExpression
  | wholeTemplate
  | templateHead
  | templateMiddle
  | templateTail
  | identifier
  | privateName
  | mark (p : Punctuator)
  | word (k : Keyword)
  deriving Repr, DecidableEq, Inhabited

namespace TokenKind

/-- The spelling of a kind that has only one. -/
def text? : TokenKind → Option String
  | mark p => some p.text
  | word k => some k.text
  | _ => none

def text (k : TokenKind) : String :=
  k.text?.getD ""

def isKeyword : TokenKind → Bool
  | word _ => true
  | _ => false

def isAssignment : TokenKind → Bool
  | mark p => p.isAssignment
  | _ => false

def compoundBase? : TokenKind → Option TokenKind
  | mark p => p.compoundBase?.map mark
  | _ => none

/-- The operators that may leave their right operand unevaluated. -/
def isLogical : TokenKind → Bool
  | mark .and | mark .or | mark .coalesce => true
  | _ => false

def isUpdate : TokenKind → Bool
  | mark .increment | mark .decrement => true
  | _ => false

end TokenKind

end Untangle
