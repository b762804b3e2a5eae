import Untangle.Grammar.Class

/-!
# Expressions

Binary operators climb the levels of precedence; the rest is plain recursive descent.
Parentheses only group and leave no node of their own.
-/

namespace Untangle
namespace Descent

open Parse

variable (d : Descent)

/-!
## Sequences
-/

def sequenceTurn : Parse (Turn NodeId) := do
  if ← eatMark .comma then return .item (← d.assignment) else return .stop

def expression : Parse NodeId := do
  let start ← offset
  let first ← d.assignment
  let others ← repeated d.fuel d.sequenceTurn
  match others.getLast? with
  | none => return first
  | some last => add (.list .sequence ((first :: others).map some)) start (← endOf last)

/-!
## Literals
-/

def spread : Parse NodeId := do
  let start ← offset
  let _ ← expectMark .ellipsis
  let value ← allowingIn d.assignment
  add (.operand .spread (some value)) start (← endOf value)

/-- An element of an array or an argument of a call. -/
def spreadOrAssignment : Parse NodeId := do
  if ← isAtMark .ellipsis then d.spread else allowingIn d.assignment

def arrayTurn : Parse (Turn NodeId) := do
  match ← kind with
  | .mark .closeBracket => return .stop
  | .mark .comma => return .item (← hole)
  | _ => beforeComma (← d.spreadOrAssignment)

def arrayLiteral : Parse NodeId := do
  let start ← offset
  let _ ← expectMark .openBracket
  let elements ← repeated d.fuel d.arrayTurn
  let stop ← expectMark .closeBracket
  add (.list .arrayLiteral (elements.map some)) start stop

def methodProperty (start : Nat) (head : MethodHead) (key : NodeId) (computed : Bool) :
    Parse NodeId := do
  let method ← d.methodFunction head
  checkAccessor head method
  let kind : PropertyKind :=
    match head.accessor with
    | some true => .getter
    | some false => .setter
    | none => .method
  add (.property kind (some key) (some method) computed) start (← endOf method)

def objectProperty : Parse NodeId := do
  let start ← offset
  if ← isAtMark .ellipsis then d.spread
  else
    let head ← methodHead
    let isPlain ← isAtIdentifier
    let (key, computed) ← d.propertyName false
    let property := fun (kind : PropertyKind) (value : NodeId) => do
      add (.property kind (some key) (some value) computed) start (← endOf value)
    match ← kind with
    | .mark .openParen => d.methodProperty start head key computed
    | .mark .colon =>
        if head.isPlain then
          advance
          property .init (← allowingIn d.assignment)
        else fail (.expected "(")
    | .mark .comma | .mark .closeBrace | .mark .assign =>
        if !head.isPlain then fail (.expected "(")
        else if isPlain then
          let value ← copyIdentifier key
          if ← eatMark .assign then property .shorthand (← d.defaultValue value)
          else property .shorthand value
        else fail (.expected ":")
    | _ => fail (.expected (if head.isPlain then ":" else "("))

def objectTurn : Parse (Turn NodeId) := do
  if ← isAtMark .closeBrace then return .stop else beforeComma (← d.objectProperty)

def objectLiteral : Parse NodeId := do
  let start ← offset
  let _ ← expectMark .openBrace
  let properties ← repeated d.fuel d.objectTurn
  let stop ← expectMark .closeBrace
  add (.list .objectLiteral (properties.map some)) start stop

/-- A slash where an expression starts opens a regular expression. -/
def regularExpression : Parse NodeId := do
  let start ← offset
  let s := (← scanner).rescanSlash
  match s.token.kind, s.error with
  | .unknown, some error => failAt start (.lexical error.cause)
  | _, _ =>
      install s
      advance
      add (.regularExpression s.token.value) start s.token.next.offset

/-!
## Templates
-/

/-- The piece at the current token. Only a tag accepts malformed escapes. -/
def quasi (tagged : Bool) : Parse Quasi := do
  let t ← token
  if t.invalidEscape then
    if tagged then return ⟨none, t.raw⟩ else fail .templateEscape
  else return ⟨some t.value, t.raw⟩

/-- Substitutions and the pieces behind them, up to the last piece. -/
def templateParts (tagged : Bool) :
    (fuel : Nat) → List Quasi → List NodeId → Parse (List Quasi × List NodeId)
  | 0, _, _ => fail .nestedTooDeeply
  | fuel + 1, quasis, expressions => do
      advance
      let e ← allowingIn d.expression
      match ← kind with
      | .templateMiddle => templateParts tagged fuel ((← quasi tagged) :: quasis) (e :: expressions)
      | .templateTail =>
          return (((← quasi tagged) :: quasis).reverse, (e :: expressions).reverse)
      | _ => fail (.expected Punctuator.closeBrace.text)

def template (tagged : Bool) : Parse NodeId := do
  let start ← offset
  let first ← quasi tagged
  let (quasis, expressions) ←
    if ← isAt .wholeTemplate then pure ([first], [])
    else d.templateParts tagged d.fuel [first] []
  let stop ← tokenEnd
  advance
  add (.template quasis (expressions.map some)) start stop

/-!
## Primary expressions
-/

/-- A node that stands for the current token alone. -/
def single (n : Node Slot) : Parse NodeId := do
  let t ← token
  advance
  add n t.start.offset t.next.offset

def grouped : Parse NodeId := do
  advance
  let e ← allowingIn d.expression
  let _ ← expectMark .closeParen
  return e

/-- The word `super`, which must be called or accessed. -/
def superReference : Parse NodeId := do
  let t ← token
  advance
  match ← kind with
  | .mark .dot | .mark .openBracket | .mark .openParen =>
      add (.bare .super) t.start.offset t.next.offset
  | _ => fail .bareSuper

/-- The word `import`, which must be called. -/
def importReference : Parse NodeId := do
  let t ← token
  advance
  if ← isAtMark .openParen then add (.bare .importCallee) t.start.offset t.next.offset
  else fail .moduleSyntax

def primary : Parse NodeId := do
  let t ← token
  if t.isContextual "async" && (← scanner).asyncFunctionFollows then d.functionExpression true
  else if ← isAtIdentifier then identifier
  else
    match t.kind with
    | .numeric | .bigInt | .string => literalKey
    | .wholeTemplate | .templateHead => d.template false
    | .mark .divide | .mark .divideAssign => regularExpression
    | .word .«true» => single (.boolean true)
    | .word .«false» => single (.boolean false)
    | .word .«null» => single (.bare .null)
    | .word .«this» => single (.bare .this)
    | .mark .openParen => d.grouped
    | .mark .openBracket => d.arrayLiteral
    | .mark .openBrace => d.objectLiteral
    | .word .«function» => d.functionExpression false
    | .word .«class» => d.classExpression
    | .word .«super» => superReference
    | .word .«import» => importReference
    | _ => fail .expressionExpected

/-!
## Accesses and calls
-/

def argumentTurn : Parse (Turn NodeId) := do
  if ← isAtMark .closeParen then return .stop else beforeComma (← d.spreadOrAssignment)

/-- An argument list and the offset of its end. -/
def arguments : Parse (List Slot × Nat) := do
  let _ ← expectMark .openParen
  let items ← repeated d.fuel d.argumentTurn
  let stop ← expectMark .closeParen
  return (items.map some, stop)

/-- `.name` or `?.name`, read from the name. -/
def namedAccess (start : Nat) (object : NodeId) (isOptional inChain : Bool) : Parse NodeId := do
  let key ← memberName
  add (.access .property (some object) (some key) isOptional inChain) start (← endOf key)

/-- One access, call or tagged template behind `object`; none when the operand ends here. -/
def suffix? (start : Nat) (allowCalls : Bool) (object : NodeId) (isOptional inChain : Bool) :
    Parse (Option NodeId) := do
  match ← kind with
  | .mark .dot =>
      if isOptional then fail .identifierExpected
      else
        advance
        return some (← namedAccess start object false inChain)
  | .mark .openBracket =>
      advance
      let key ← allowingIn d.expression
      let stop ← expectMark .closeBracket
      return some (← add (.access .element (some object) (some key) isOptional inChain) start stop)
  | .mark .openParen =>
      if allowCalls then
        let (arguments, stop) ← d.arguments
        return some (← add (.call .call (some object) arguments isOptional inChain) start stop)
      else return none
  | .wholeTemplate | .templateHead =>
      if inChain then fail .optionalChainTag
      else
        let text ← d.template true
        return some (← add (.taggedTemplate (some object) (some text)) start (← endOf text))
  | _ =>
      if isOptional then return some (← namedAccess start object true inChain)
      else return none

/-- All suffixes of an operand. Once one is optional, the ones behind it are in its chain. -/
def suffixes (start : Nat) (allowCalls : Bool) : (fuel : Nat) → NodeId → Bool → Parse NodeId
  | 0, _, _ => fail .nestedTooDeeply
  | fuel + 1, object, inChain => do
      let isOptional ← isAtMark .optionalDot
      if isOptional && !allowCalls then fail .optionalChainInNew
      else
        if isOptional then advance
        match ← d.suffix? start allowCalls object isOptional (inChain || isOptional) with
        | some extended => suffixes start allowCalls fuel extended (inChain || isOptional)
        | none => return object

/-- `new.target`, read from the dot. -/
def newTarget (start : Nat) : Parse NodeId := do
  advance
  let t ← token
  if t.isContextual "target" then
    advance
    add (.bare .newTarget) start t.next.offset
  else fail (.expected "target")

/-- The callee of `new`, to which no call belongs. -/
def newCallee : Parse NodeId := do
  let start ← offset
  let callee ← if ← isAt (.word .«new») then d.parse .newExpression else d.primary
  d.suffixes start false d.fuel callee false

def newExpressionProduction : Parse NodeId := do
  let start ← offset
  let _ ← expect (.word .«new»)
  if ← isAtMark .dot then newTarget start
  else
    let callee ← deeper d.newCallee
    match ← node? callee with
    | some (.bare .importCallee) => fail .newImport
    | _ =>
        let (arguments, stop) ←
          if ← isAtMark .openParen then d.arguments else do pure ([], ← endOf callee)
        add (.call .construct (some callee) arguments false false) start stop

def leftHandSideProduction : Parse NodeId := do
  let start ← offset
  let operand ←
    if ← isAt (.word .«new») then d.newExpressionProduction else d.primary
  d.suffixes start true d.fuel operand false

/-!
## Unary operators
-/

def unaryAfter : Parse NodeId := do
  let start ← offset
  let operand ← d.leftHandSideProduction
  let t ← token
  if t.kind.isUpdate && !t.lineBreakBefore then
    if ← Pattern.isTargetAt operand then
      advance
      add (.unary .after t.kind (some operand)) start t.next.offset
    else fail (.invalidUpdateTarget false)
  else return operand

def unaryBefore (operator : TokenKind) : Parse NodeId := do
  let start ← offset
  advance
  let operand ← deeper (d.parse .unary)
  if operator.isUpdate && !(← Pattern.isTargetAt operand) then
    failAt start (.invalidUpdateTarget true)
  else add (.unary .before operator (some operand)) start (← endOf operand)

def awaitExpression : Parse NodeId := do
  let start ← offset
  advance
  let operand ← deeper (d.parse .unary)
  add (.operand .await (some operand)) start (← endOf operand)

def unaryProduction : Parse NodeId := do
  let k ← kind
  if ← isAtAwait then d.awaitExpression
  else if k.isUnaryOperator || k.isUpdate then d.unaryBefore k
  else d.unaryAfter

/-!
## Binary operators
-/

/-- `#field in object` is the only place where a private name stands alone. -/
def privateNameOperand : Parse NodeId := do
  if (← scanner).nextKind == .word .«in» && !(← read).noIn then privateName
  else fail .misplacedPrivateName

/-- The operator at the current token and its level, when it binds more strongly than the
bound. -/
def operator? (bound : Option Precedence) : Parse (Option (TokenKind × Precedence)) := do
  let operator ← kind
  if operator == .word .«in» && (← read).noIn then return none
  else
    match operator.binaryPrecedence? with
    | none => return none
    | some p => return if bound.any (p ≤ ·) then none else some (operator, p)

/-- The right operand takes all operators that bind more strongly, and for `**` also those that
bind as strongly. -/
def rightBound (operator : TokenKind) (p : Precedence) : Precedence :=
  if operator.isRightAssociative then .multiplicative else p

def binaryForm (operator : TokenKind) : BinaryForm :=
  if operator.isLogical then .logical else .binary

/-- Operators and right operands behind `left`. `room` bounds the length of the run. -/
def operators (start : Nat) (bound : Option Precedence) (afterUnary : Bool) :
    (room : Nat) → NodeId → Parse NodeId
  | room, left => do
      match ← operator? bound with
      | none => return left
      | some (operator, p) =>
          if operator.isRightAssociative && afterUnary then fail .unaryBeforePower
          else
            match room with
            | 0 => fail .nestedTooDeeply
            | room + 1 =>
                advance
                let right ← deeper (d.parse (.binary (some (rightBound operator p))))
                let joined ←
                  add (.binary (binaryForm operator) (some left) operator (some right)) start
                    (← endOf right)
                operators start bound false room joined

def binaryProduction (bound : Option Precedence) : Parse NodeId := do
  let start ← offset
  let afterUnary := (← kind).isUnaryOperator || (← isAtAwait)
  let left ← if ← isAt .privateName then privateNameOperand else d.unaryProduction
  d.operators start bound afterUnary Limits.treeDepth left

/-!
## Conditionals, `yield` and arrow functions
-/

def conditional : Parse NodeId := do
  let start ← offset
  let condition ← d.binaryProduction none
  if ← eatMark .question then
    let whenTrue ← allowingIn d.assignment
    let _ ← expectMark .colon
    let whenFalse ← d.assignment
    add (.conditional (some condition) (some whenTrue) (some whenFalse)) start
      (← endOf whenFalse)
  else return condition

/-- `yield`, `yield value` and `yield* values`. -/
def yieldExpression : Parse NodeId := do
  let t ← token
  let start := t.start.offset
  advance
  let next ← token
  if next.lineBreakBefore then add (.yield none false) start t.next.offset
  else
    let delegate ← eatMark .times
    if delegate || !(← kind).endsYield then
      let argument ← d.assignment
      add (.yield (some argument) delegate) start (← endOf argument)
    else add (.yield none false) start t.next.offset

def arrowParameters : Parse (List Slot) := do
  if ← isAtMark .openParen then d.parameters else return [some (← identifier)]

def arrowFunction (isAsync : Bool) : Parse NodeId := do
  let start ← offset
  if isAsync then advance
  let (parameters, body) ← inFunction isAsync false do
    let parameters ← d.arrowParameters
    if (← token).lineBreakBefore then fail .lineBreakBeforeArrow
    else
      let _ ← expectMark .arrow
      let body ← if ← isAtMark .openBrace then d.functionBody else d.assignment
      return (parameters, body)
  add (.function .arrow none parameters (some body) isAsync false) start (← endOf body)

/-- Whether an arrow function starts here, and whether it is asynchronous. -/
def arrowStart? : Parse (Option Bool) := do
  let s ← scanner
  if s.token.isContextual "async" && s.asyncArrowFollows then return some true
  else if ← isAtIdentifier then return if s.arrowFollows then some false else none
  else if s.token.kind == .mark .openParen && s.parametersFollow then return some false
  else return none

/-!
## Assignments
-/

/-- Check the left side of an assignment, turning a literal before `=` into a pattern. -/
def assignmentTarget (left : NodeId) (operator : TokenKind) : Parse Unit := do
  match ← node? left with
  | some (.list .arrayLiteral _) | some (.list .objectLiteral _) =>
      if operator == .mark .assign then Pattern.convert left else fail .invalidAssignmentTarget
  | some node => if node.isTarget then pure () else fail .invalidAssignmentTarget
  | none => fail .invalidAssignmentTarget

def assignmentProduction : Parse NodeId := do
  if (← read).inGenerator && (← isAt (.word .«yield»)) then d.yieldExpression
  else
    match ← arrowStart? with
    | some isAsync => d.arrowFunction isAsync
    | none =>
        let start ← offset
        let left ← d.conditional
        let operator ← kind
        if operator.isAssignment then
          assignmentTarget left operator
          advance
          let right ← d.assignment
          add (.binary .assignment (some left) operator (some right)) start (← endOf right)
        else return left

end Descent
end Untangle
