import Untangle.Text.Position
import Untangle.Token.Lexeme

/-!
# Syntax errors

Reading a program stops at the first error, which is a cause and the byte offset it is reported
at.
-/

namespace Untangle

namespace SyntaxError

inductive Cause
  | lexical (cause : LexicalError.Cause)
  /-- A token or word that must stand here. -/
  | expected (text : String)
  | handlerExpected
  | clauseExpected
  | identifierExpected
  | expressionExpected
  | propertyExpected
  | reservedWord (text : String)
  | escapedKeyword
  | awaitAsName
  | moduleSyntax
  | nestedTooDeeply
  | lineBreakNotPermitted
  | lineBreakBeforeArrow
  | unaryBeforePower
  | misplacedPrivateName
  | invalidAssignmentTarget
  | invalidUpdateTarget (before : Bool)
  | invalidIterationTarget
  | invalidPatternTarget
  | shorthandInitializer
  | missingPatternInitializer
  | missingConstInitializer
  | restParameterNotLast
  | restElementNotLast
  | restElementInitializer
  | optionalChainInNew
  | optionalChainTag
  | newImport
  | bareSuper
  | templateEscape
  | getterParameters
  | setterParameters
  | repeatedDefault
  | constructorField
  | specialConstructor
  | repeatedConstructor
  deriving Repr, DecidableEq

def Cause.message : Cause → String
  | lexical cause => cause.message
  | expected text => "'" ++ text ++ "' expected"
  | handlerExpected => "'catch' or 'finally' expected"
  | clauseExpected => "'case' or 'default' expected"
  | identifierExpected => "Identifier expected"
  | expressionExpected => "Expression expected"
  | propertyExpected => "Property assignment expected"
  | reservedWord text => "'" ++ text ++ "' is a reserved word"
  | escapedKeyword => "Keyword must not contain escaped characters"
  | awaitAsName => "'await' cannot be used as an identifier here"
  | moduleSyntax => "'import' and 'export' may appear only in modules"
  | nestedTooDeeply => "Expression nested too deeply"
  | lineBreakNotPermitted => "Line break not permitted here"
  | lineBreakBeforeArrow => "Line terminator not permitted before arrow"
  | unaryBeforePower => "Unary operator used immediately before '**' must be parenthesized"
  | misplacedPrivateName => "Unexpected private name"
  | invalidAssignmentTarget => "Invalid left-hand side in assignment"
  | invalidUpdateTarget true => "Invalid left-hand side expression in prefix operation"
  | invalidUpdateTarget false => "Invalid left-hand side expression in postfix operation"
  | invalidIterationTarget => "Invalid left-hand side in for-in/for-of loop"
  | invalidPatternTarget => "Invalid destructuring assignment target"
  | shorthandInitializer => "Invalid shorthand property initializer"
  | missingPatternInitializer => "Missing initializer in destructuring declaration"
  | missingConstInitializer => "Missing initializer in const declaration"
  | restParameterNotLast => "A rest parameter must be last in a parameter list"
  | restElementNotLast => "A rest element must be last in a destructuring pattern"
  | restElementInitializer => "A rest element cannot have an initializer"
  | optionalChainInNew => "Invalid optional chain from new expression"
  | optionalChainTag => "Invalid tagged template on optional chain"
  | newImport => "Cannot use new with import"
  | bareSuper => "'super' must be followed by an argument list or member access"
  | templateEscape => "Invalid escape sequence in template"
  | getterParameters => "A 'get' accessor cannot have parameters"
  | setterParameters => "A 'set' accessor must have exactly one parameter"
  | repeatedDefault =>
      "A 'default' clause cannot appear more than once in a 'switch' statement"
  | constructorField => "Classes may not have a field named 'constructor'"
  | specialConstructor => "Class constructor may not be a special method"
  | repeatedConstructor => "A class may only have one constructor"

end SyntaxError

structure SyntaxError where
  cause : SyntaxError.Cause
  offset : Nat
  deriving Repr, DecidableEq

namespace SyntaxError

def message (e : SyntaxError) : String :=
  e.cause.message

def position (e : SyntaxError) (source : String) : Text.Position :=
  Text.position source e.offset

/-- The message behind its line and column. -/
def display (e : SyntaxError) (source : String) : String :=
  let p := e.position source
  toString p.line ++ ":" ++ toString p.column ++ ": " ++ e.message

end SyntaxError
end Untangle
