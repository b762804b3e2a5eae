import Untangle.Grammar.Expression

/-!
# Statements and declarations
-/

namespace Untangle
namespace Descent

open Parse

variable (d : Descent)

/-!
## Variables
-/

def variableKind : TokenKind → VariableKind
  | .word .«let» => .«let»
  | .word .«const» => .«const»
  | _ => .«var»

def declarator : Parse NodeId := do
  let start ← offset
  let name ← d.bindingTarget
  if ← eatMark .assign then
    let value ← d.assignment
    add (.declarator (some name) (some value)) start (← endOf value)
  else add (.declarator (some name) none) start (← endOf name)

def declaratorTurn : Parse (Turn NodeId) := do
  beforeComma (← d.declarator)

/-- A declaration list without its semicolon. -/
def declarationList : Parse NodeId := do
  let start ← offset
  let kind := variableKind (← kind)
  advance
  let declarators ← repeated d.fuel d.declaratorTurn
  let stop ←
    match declarators.getLast? with
    | some last => endOf last
    | none => pure start
  add (.variableStatement kind (declarators.map some)) start stop

/-- Outside iteration heads, patterns and constants need an initializer. -/
def checkDeclarator (kind : VariableKind) (declarator : NodeId) : Parse Unit := do
  match ← node? declarator with
  | some (.declarator name none) =>
      if ((← get).forest.identifierText? name).isNone then
        failAt (← startOf declarator) .missingPatternInitializer
      else if kind = .«const» then failAt (← startOf declarator) .missingConstInitializer
      else pure ()
  | _ => pure ()

def checkDeclarations (statement : NodeId) : Parse Unit := do
  match ← node? statement with
  | some (.variableStatement kind declarators) =>
      (declarators.filterMap id).forM (checkDeclarator kind)
  | _ => pure ()

def variableStatement : Parse NodeId := do
  let statement ← d.declarationList
  checkDeclarations statement
  semicolon
  return statement

/-!
## Conditions and loops
-/

/-- An expression in parentheses. -/
def parenthesized : Parse NodeId := do
  let _ ← expectMark .openParen
  let e ← d.expression
  let _ ← expectMark .closeParen
  return e

def conditionalStatement : Parse NodeId := do
  let start ← offset
  let _ ← expect (.word .«if»)
  let condition ← d.parenthesized
  let whenTrue ← d.statement
  if ← eat (.word .«else») then
    let whenFalse ← d.statement
    add (.conditionalStatement (some condition) (some whenTrue) (some whenFalse)) start
      (← endOf whenFalse)
  else
    add (.conditionalStatement (some condition) (some whenTrue) none) start (← endOf whenTrue)

/-- A condition or a `with` object in front of a statement. -/
def guarded (form : GuardForm) (word : Keyword) : Parse NodeId := do
  let start ← offset
  let _ ← expect (.word word)
  let condition ← d.parenthesized
  let body ← d.statement
  add (.guarded form (some condition) (some body)) start (← endOf body)

/-- The semicolon behind the condition is optional. -/
def doLoop : Parse NodeId := do
  let start ← offset
  let _ ← expect (.word .«do»)
  let body ← d.statement
  let _ ← expect (.word .«while»)
  let _ ← expectMark .openParen
  let condition ← d.expression
  let stop ← expectMark .closeParen
  let _ ← eatMark .semicolon
  add (.guarded .doLoop (some condition) (some body)) start stop

/-- What stands before the first semicolon, `in` or `of` of a loop head. -/
def loopInitializer : Parse Slot := do
  match ← kind with
  | .mark .semicolon => return none
  | .word .«var» | .word .«const» => return some (← d.declarationList)
  | .word .«let» =>
      if (← scanner).letDeclares then return some (← d.declarationList)
      else return some (← d.expression)
  | _ => return some (← d.expression)

/-- One declarator without initializer, or a target; a literal becomes a pattern. -/
def checkIterationTarget (target : Slot) : Parse Unit := do
  let forest := (← get).forest
  let bareDeclarator := fun (s : Slot) =>
    match forest.node? s with
    | some (.declarator _ none) => true
    | _ => false
  match target, forest.node? target with
  | some _, some (.variableStatement _ [declarator]) =>
      if bareDeclarator declarator then pure () else fail .invalidIterationTarget
  | some i, some (.list .arrayLiteral _) => Pattern.convert i
  | some i, some (.list .objectLiteral _) => Pattern.convert i
  | some _, some node => if node.isTarget then pure () else fail .invalidIterationTarget
  | _, _ => fail .invalidIterationTarget

/-- The rest of an iteration, from `in` or `of`. -/
def iteration (start : Nat) (target : Slot) (form : IterationForm) (isAwait : Bool) :
    Parse NodeId := do
  checkIterationTarget target
  advance
  let subject ←
    match form with
    | .overValues => allowingIn d.assignment
    | .overKeys => allowingIn d.expression
  let _ ← expectMark .closeParen
  let body ← d.statement
  add (.iteration form target (some subject) (some body) isAwait) start (← endOf body)

/-- An expression that may be absent in front of `stop`. -/
def optionalExpression (stop : Punctuator) : Parse Slot := do
  if ← isAtMark stop then return none else return some (← allowingIn d.expression)

/-- The rest of a loop with three clauses, from the first semicolon. -/
def forLoop (start : Nat) (initializer : Slot) : Parse NodeId := do
  match initializer with
  | some i => checkDeclarations i
  | none => pure ()
  let _ ← expectMark .semicolon
  let condition ← d.optionalExpression .semicolon
  let _ ← expectMark .semicolon
  let increment ← d.optionalExpression .closeParen
  let _ ← expectMark .closeParen
  let body ← d.statement
  add (.forLoop initializer condition increment (some body)) start (← endOf body)

def forStatement : Parse NodeId := do
  let start ← offset
  let _ ← expect (.word .«for»)
  let isAwait ← isAtAwait
  if isAwait then advance
  let _ ← expectMark .openParen
  let initializer ← withoutIn d.loopInitializer
  if ← isAtWord "of" then d.iteration start initializer .overValues isAwait
  else if isAwait then fail (.expected "of")
  else if ← isAt (.word .«in») then d.iteration start initializer .overKeys isAwait
  else d.forLoop start initializer

/-!
## Jumps
-/

def returnStatement : Parse NodeId := do
  let t ← token
  advance
  if (← token).endsStatement then
    semicolon
    add (.operand .returnStatement none) t.start.offset t.next.offset
  else
    let value ← d.expression
    let stop ← endOf value
    semicolon
    add (.operand .returnStatement (some value)) t.start.offset stop

def throwStatement : Parse NodeId := do
  let start ← offset
  advance
  if (← token).lineBreakBefore then fail .lineBreakNotPermitted
  else
    let value ← d.expression
    let stop ← endOf value
    semicolon
    add (.operand .throwStatement (some value)) start stop

def jump (form : JumpForm) : Parse NodeId := do
  let t ← token
  let start := t.start.offset
  advance
  if !(← token).endsStatement && (← isAtIdentifier) then
    let label ← identifier
    let stop ← endOf label
    semicolon
    add (.jump form (some label)) start stop
  else
    semicolon
    add (.jump form none) start t.next.offset

/-!
## Exceptions
-/

def catchClause : Parse NodeId := do
  let start ← offset
  advance
  let binding ←
    if ← eatMark .openParen then do
      let target ← d.bindingTarget
      let _ ← expectMark .closeParen
      pure (some target)
    else pure none
  let block ← d.block
  add (.catchClause binding (some block)) start (← endOf block)

def tryStatement : Parse NodeId := do
  let start ← offset
  let _ ← expect (.word .«try»)
  let block ← d.block
  let handler ←
    if ← isAt (.word .«catch») then do pure (some (← d.catchClause)) else pure none
  let finalizer ←
    if ← eat (.word .«finally») then do pure (some (← d.block)) else pure none
  match finalizer.or handler with
  | some last => add (.tryStatement (some block) handler finalizer) start (← endOf last)
  | none => fail .handlerExpected

/-!
## Switches
-/

def clauseStatementTurn : Parse (Turn NodeId) := do
  match ← kind with
  | .word .«case» | .word .«default» | .mark .closeBrace | .endOfFile => return .stop
  | _ => return .item (← d.statement)

/-- A clause from behind its test. -/
def clauseRest (start : Nat) (test : Slot) : Parse NodeId := do
  let colon ← expectMark .colon
  let statements ← repeated d.fuel d.clauseStatementTurn
  let stop ←
    match statements.getLast? with
    | some last => endOf last
    | none => pure colon
  add (.caseClause test (statements.map some)) start stop

def clauses : (fuel : Nat) → Bool → List NodeId → Parse (List NodeId)
  | 0, _, _ => fail .nestedTooDeeply
  | fuel + 1, hasDefault, reversed => do
      let start ← offset
      match ← kind with
      | .mark .closeBrace => return reversed.reverse
      | .word .«case» =>
          advance
          let test ← d.expression
          let clause ← d.clauseRest start (some test)
          clauses fuel hasDefault (clause :: reversed)
      | .word .«default» =>
          if hasDefault then fail .repeatedDefault
          else
            advance
            let clause ← d.clauseRest start none
            clauses fuel true (clause :: reversed)
      | _ => fail .clauseExpected

def switchStatement : Parse NodeId := do
  let start ← offset
  let _ ← expect (.word .«switch»)
  let subject ← d.parenthesized
  let _ ← expectMark .openBrace
  let clauses ← d.clauses d.fuel false []
  let stop ← expectMark .closeBrace
  add (.switch (some subject) (clauses.map some)) start stop

/-!
## Statements
-/

def expressionStatement : Parse NodeId := do
  let start ← offset
  let e ← d.expression
  let stop ← endOf e
  semicolon
  add (.operand .expressionStatement (some e)) start stop

def labeledStatement : Parse NodeId := do
  let start ← offset
  let label ← identifier
  let _ ← expectMark .colon
  let body ← d.statement
  add (.labeled (some label) (some body)) start (← endOf body)

def emptyStatement : Parse NodeId :=
  single (.bare .emptyStatement)

def debuggerStatement : Parse NodeId := do
  let t ← token
  advance
  semicolon
  add (.bare .debuggerStatement) t.start.offset t.next.offset

/-- A label, or else an expression. -/
def otherStatement : Parse NodeId := do
  if (← isAtIdentifier) && (← scanner).nextKind == .mark .colon then d.labeledStatement
  else d.expressionStatement

def statementProduction : Parse NodeId := do
  let s ← scanner
  match s.token.kind with
  | .mark .openBrace => d.block
  | .mark .semicolon => emptyStatement
  | .word .«var» | .word .«const» => d.variableStatement
  | .word .«let» => if s.letDeclares then d.variableStatement else d.otherStatement
  | .word .«function» => d.functionDeclaration false
  | .identifier =>
      if s.token.isContextual "async" && s.asyncFunctionFollows then d.functionDeclaration true
      else d.otherStatement
  | .word .«class» => d.classDeclaration
  | .word .«if» => d.conditionalStatement
  | .word .«for» => d.forStatement
  | .word .«while» => d.guarded .whileLoop .«while»
  | .word .«do» => d.doLoop
  | .word .«return» => d.returnStatement
  | .word .«throw» => d.throwStatement
  | .word .«break» => jump .«break»
  | .word .«continue» => jump .«continue»
  | .word .«try» => d.tryStatement
  | .word .«switch» => d.switchStatement
  | .word .«with» => d.guarded .withObject .«with»
  | .word .«debugger» => debuggerStatement
  | .word .«import» =>
      if s.nextKind == .mark .openParen then d.expressionStatement else fail .moduleSyntax
  | .word .«export» => fail .moduleSyntax
  | .word .«enum» => fail (.reservedWord Keyword.«enum».text)
  | _ => d.otherStatement

end Descent
end Untangle
