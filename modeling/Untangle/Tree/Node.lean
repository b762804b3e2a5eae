import Untangle.Tree.Precedence

/-!
# Syntax nodes

A node holds its own payload and one value of type `α` in each of its child slots. In a forest
the slots hold references to other nodes; other choices of `α` give views of a node through a
function of its children.

Nodes of one shape that differ only in meaning share a constructor and are told apart by a form.
-/

namespace Untangle

/-!
## Forms
-/

/-- Nodes without payload and without children. -/
inductive BareForm
  | emptyStatement | debuggerStatement | omitted | null | this | super | newTarget | importCallee
  deriving Repr, DecidableEq

inductive BodyForm
  | program | block | staticBlock
  deriving Repr, DecidableEq

inductive VariableKind
  | «var» | «let» | «const»
  deriving Repr, DecidableEq

def VariableKind.text : VariableKind → String
  | «var» => "var"
  | «let» => "let"
  | «const» => "const"

inductive FunctionForm
  | declaration | expression | arrow
  deriving Repr, DecidableEq

inductive ClassForm
  | declaration | expression
  deriving Repr, DecidableEq

inductive MethodKind
  | construct | method | getter | setter
  deriving Repr, DecidableEq

inductive PropertyKind
  | init | getter | setter | method | shorthand
  deriving Repr, DecidableEq

/-- Nodes with one child that may be any expression. -/
inductive OperandForm
  | expressionStatement | returnStatement | throwStatement | spread | rest | await
  deriving Repr, DecidableEq

inductive IterationForm
  | overKeys | overValues
  deriving Repr, DecidableEq

/-- Statements with one expression and one statement. The expression of a `with` statement is
its object. -/
inductive GuardForm
  | whileLoop | doLoop | withObject
  deriving Repr, DecidableEq

inductive JumpForm
  | «break» | «continue»
  deriving Repr, DecidableEq

inductive NameForm
  | identifier | privateName
  deriving Repr, DecidableEq

inductive ListForm
  | arrayLiteral | objectLiteral | arrayPattern | objectPattern | sequence
  deriving Repr, DecidableEq

inductive CallForm
  | call | construct
  deriving Repr, DecidableEq

inductive AccessForm
  | property | element
  deriving Repr, DecidableEq

inductive UnaryForm
  | before | after
  deriving Repr, DecidableEq

/-- Nodes with an operator between two operands. A default in a pattern is one of them. -/
inductive BinaryForm
  | binary | logical | assignment | default
  deriving Repr, DecidableEq

/-- One literal piece of a template; without a value when an escape in it is malformed. -/
structure Quasi where
  cooked : Option String
  raw : String
  deriving Repr, DecidableEq

/-!
## Nodes
-/

inductive Node (α : Type) where
  | bare (form : BareForm)
  | body (form : BodyForm) (statements : List α)
  | variableStatement (kind : VariableKind) (declarators : List α)
  | declarator (name initializer : α)
  | function (form : FunctionForm) (name : α) (parameters : List α) (body : α)
      (isAsync isGenerator : Bool)
  | classLike (form : ClassForm) (name heritage : α) (members : List α)
  | method (kind : MethodKind) (name value : α) (computed isStatic : Bool)
  | field (name value : α) (computed isStatic : Bool)
  | operand (form : OperandForm) (expression : α)
  | conditionalStatement (condition whenTrue whenFalse : α)
  | forLoop (initializer condition increment statement : α)
  | iteration (form : IterationForm) (target subject statement : α) (isAwait : Bool)
  | guarded (form : GuardForm) (condition statement : α)
  | jump (form : JumpForm) (label : α)
  | tryStatement (block handler finalizer : α)
  | catchClause (binding block : α)
  | switch (subject : α) (clauses : List α)
  | caseClause (test : α) (statements : List α)
  | labeled (label statement : α)
  | name (form : NameForm) (text : String)
  | string (value : String) (raw : Option String) (loneSurrogate : Bool)
  | number (value : Float) (raw : Option String)
  | bigInt (raw : String)
  | boolean (value : Bool)
  | regularExpression (text : String)
  | template (quasis : List Quasi) (expressions : List α)
  | taggedTemplate (tag template : α)
  | yield (argument : α) (delegate : Bool)
  | list (form : ListForm) (elements : List α)
  | property (kind : PropertyKind) (name value : α) (computed : Bool)
  | call (form : CallForm) (callee : α) (arguments : List α) (isOptional inChain : Bool)
  | access (form : AccessForm) (object key : α) (isOptional inChain : Bool)
  | unary (form : UnaryForm) (operator : TokenKind) (argument : α)
  | binary (form : BinaryForm) (left : α) (operator : TokenKind) (right : α)
  | conditional (condition whenTrue whenFalse : α)
  deriving Inhabited

namespace Node

variable {α β : Type}

/-!
## Slots
-/

/-- The contents of all child slots in source order. -/
def slots : Node α → List α
  | bare _ => []
  | body _ statements => statements
  | variableStatement _ declarators => declarators
  | declarator ident initializer => [ident, initializer]
  | function _ ident parameters code _ _ => ident :: parameters ++ [code]
  | classLike _ ident heritage members => ident :: heritage :: members
  | method _ key value _ _ => [key, value]
  | field key value _ _ => [key, value]
  | operand _ expression => [expression]
  | conditionalStatement condition whenTrue whenFalse => [condition, whenTrue, whenFalse]
  | forLoop initializer condition increment statement =>
      [initializer, condition, increment, statement]
  | iteration _ target subject statement _ => [target, subject, statement]
  | guarded .doLoop condition statement => [statement, condition]
  | guarded _ condition statement => [condition, statement]
  | jump _ label => [label]
  | tryStatement block handler finalizer => [block, handler, finalizer]
  | catchClause binding block => [binding, block]
  | switch subject clauses => subject :: clauses
  | caseClause test statements => test :: statements
  | labeled label statement => [label, statement]
  | name _ _ => []
  | string _ _ _ => []
  | number _ _ => []
  | bigInt _ => []
  | boolean _ => []
  | regularExpression _ => []
  | template _ expressions => expressions
  | taggedTemplate tag pieces => [tag, pieces]
  | yield argument _ => [argument]
  | list _ elements => elements
  | property _ key value _ => [key, value]
  | call _ callee arguments _ _ => callee :: arguments
  | access _ object key _ _ => [object, key]
  | unary _ _ argument => [argument]
  | binary _ left _ right => [left, right]
  | conditional condition whenTrue whenFalse => [condition, whenTrue, whenFalse]

/-- Rebuild a node from an action on each slot, run in source order. -/
@[specialize] def mapM {m : Type → Type} [Monad m] (f : α → m β) : Node α → m (Node β)
  | bare form => return bare form
  | body form statements => return body form (← statements.mapM f)
  | variableStatement kind declarators => return variableStatement kind (← declarators.mapM f)
  | declarator ident initializer => return declarator (← f ident) (← f initializer)
  | function form ident parameters code isAsync isGenerator =>
      return function form (← f ident) (← parameters.mapM f) (← f code) isAsync isGenerator
  | classLike form ident heritage members =>
      return classLike form (← f ident) (← f heritage) (← members.mapM f)
  | method kind key value computed isStatic =>
      return method kind (← f key) (← f value) computed isStatic
  | field key value computed isStatic =>
      return field (← f key) (← f value) computed isStatic
  | operand form expression => return operand form (← f expression)
  | conditionalStatement condition whenTrue whenFalse =>
      return conditionalStatement (← f condition) (← f whenTrue) (← f whenFalse)
  | forLoop initializer condition increment statement =>
      return forLoop (← f initializer) (← f condition) (← f increment) (← f statement)
  | iteration form target subject statement isAwait =>
      return iteration form (← f target) (← f subject) (← f statement) isAwait
  | guarded .doLoop condition statement => do
      let statement ← f statement
      return guarded .doLoop (← f condition) statement
  | guarded form condition statement => return guarded form (← f condition) (← f statement)
  | jump form label => return jump form (← f label)
  | tryStatement block handler finalizer =>
      return tryStatement (← f block) (← f handler) (← f finalizer)
  | catchClause binding block => return catchClause (← f binding) (← f block)
  | switch subject clauses => return switch (← f subject) (← clauses.mapM f)
  | caseClause test statements => return caseClause (← f test) (← statements.mapM f)
  | labeled label statement => return labeled (← f label) (← f statement)
  | name form text => return name form text
  | string value raw loneSurrogate => return string value raw loneSurrogate
  | number value raw => return number value raw
  | bigInt raw => return bigInt raw
  | boolean value => return boolean value
  | regularExpression text => return regularExpression text
  | template quasis expressions => return template quasis (← expressions.mapM f)
  | taggedTemplate tag pieces => return taggedTemplate (← f tag) (← f pieces)
  | yield argument delegate => return yield (← f argument) delegate
  | list form elements => return list form (← elements.mapM f)
  | property kind key value computed =>
      return property kind (← f key) (← f value) computed
  | call form callee arguments isOptional inChain =>
      return call form (← f callee) (← arguments.mapM f) isOptional inChain
  | access form object key isOptional inChain =>
      return access form (← f object) (← f key) isOptional inChain
  | unary form operator argument => return unary form operator (← f argument)
  | binary form left operator right => return binary form (← f left) operator (← f right)
  | conditional condition whenTrue whenFalse =>
      return conditional (← f condition) (← f whenTrue) (← f whenFalse)

/-- Put a function of each slot's content into the slot. -/
def map (f : α → β) (n : Node α) : Node β :=
  Id.run (n.mapM fun a => pure (f a))

/-- Put `b` into the first slot that holds `a`; the flag tells whether there was one. -/
def replaceFirst [BEq α] (a b : α) (n : Node α) : Node α × Bool :=
  let step : α → StateM Bool α := fun slot done =>
    if !done && slot == a then (b, true) else (slot, done)
  (n.mapM step).run false

/-!
## The list slot
-/

/-- The one list of children a node may have. -/
def entries? : Node α → Option (List α)
  | body _ statements => some statements
  | variableStatement _ declarators => some declarators
  | function _ _ parameters _ _ _ => some parameters
  | classLike _ _ _ members => some members
  | switch _ clauses => some clauses
  | caseClause _ statements => some statements
  | template _ expressions => some expressions
  | list _ elements => some elements
  | call _ _ arguments _ _ => some arguments
  | _ => none

/-- Replace the list of children; nodes without one are unchanged. -/
def withEntries (entries : List α) : Node α → Node α
  | body form _ => body form entries
  | variableStatement kind _ => variableStatement kind entries
  | function form ident _ code isAsync isGenerator =>
      function form ident entries code isAsync isGenerator
  | classLike form ident heritage _ => classLike form ident heritage entries
  | switch subject _ => switch subject entries
  | caseClause test _ => caseClause test entries
  | template quasis _ => template quasis entries
  | list form _ => list form entries
  | call form callee _ isOptional inChain => call form callee entries isOptional inChain
  | n => n

/-- Whether the list of children may hold any statement. -/
def holdsStatements : Node α → Bool
  | body _ _ => true
  | caseClause _ _ => true
  | _ => false

/-!
## Classes of nodes
-/

def isLiteral : Node α → Bool
  | string _ _ _ => true
  | number _ _ => true
  | boolean _ => true
  | bare .null => true
  | _ => false

def isPattern : Node α → Bool
  | list .arrayPattern _ => true
  | list .objectPattern _ => true
  | binary .default _ _ _ => true
  | operand .rest _ => true
  | _ => false

def isFunction : Node α → Bool
  | function _ _ _ _ _ _ => true
  | _ => false

def isClass : Node α → Bool
  | classLike _ _ _ _ => true
  | _ => false

def identifierText? : Node α → Option String
  | name .identifier text => some text
  | _ => none

/-- The level at which an expression binds. -/
def precedence : Node α → Precedence
  | list .sequence _ => .comma
  | binary .assignment _ _ _ => .assignment
  | binary .default _ _ _ => .assignment
  | function .arrow _ _ _ _ _ => .assignment
  | yield _ _ => .assignment
  | conditional _ _ _ => .conditional
  | binary _ _ operator _ => operator.binaryPrecedence?.getD .comma
  | unary .before operator _ => if operator.isUpdate then .update else .unary
  | operand .await _ => .unary
  | unary .after _ _ => .update
  | call .call _ _ _ _ => .leftHandSide
  | call .construct _ _ _ _ => .member
  | access _ _ _ _ _ => .member
  | taggedTemplate _ _ => .member
  | _ => .primary

/-!
## Names of the kinds
-/

def kindName : Node α → String
  | bare .emptyStatement => "EmptyStatement"
  | bare .debuggerStatement => "DebuggerStatement"
  | bare .omitted => "OmittedExpression"
  | bare .null => "NullLiteral"
  | bare .this => "ThisKeyword"
  | bare .super => "Super"
  | bare .newTarget => "NewTarget"
  | bare .importCallee => "Import"
  | body .program _ => "Program"
  | body .block _ => "Block"
  | body .staticBlock _ => "StaticBlock"
  | variableStatement _ _ => "VariableStatement"
  | declarator _ _ => "VariableDeclarator"
  | function .declaration _ _ _ _ _ => "FunctionDeclaration"
  | function .expression _ _ _ _ _ => "FunctionExpression"
  | function .arrow _ _ _ _ _ => "ArrowFunction"
  | classLike .declaration _ _ _ => "ClassDeclaration"
  | classLike .expression _ _ _ => "ClassExpression"
  | method _ _ _ _ _ => "MethodDefinition"
  | field _ _ _ _ => "PropertyDefinition"
  | operand .expressionStatement _ => "ExpressionStatement"
  | operand .returnStatement _ => "ReturnStatement"
  | operand .throwStatement _ => "ThrowStatement"
  | operand .spread _ => "SpreadElement"
  | operand .rest _ => "RestElement"
  | operand .await _ => "AwaitExpression"
  | conditionalStatement _ _ _ => "IfStatement"
  | forLoop _ _ _ _ => "ForStatement"
  | iteration .overKeys _ _ _ _ => "ForInStatement"
  | iteration .overValues _ _ _ _ => "ForOfStatement"
  | guarded .whileLoop _ _ => "WhileStatement"
  | guarded .doLoop _ _ => "DoStatement"
  | guarded .withObject _ _ => "WithStatement"
  | jump .«break» _ => "BreakStatement"
  | jump .«continue» _ => "ContinueStatement"
  | tryStatement _ _ _ => "TryStatement"
  | catchClause _ _ => "CatchClause"
  | switch _ _ => "SwitchStatement"
  | caseClause _ _ => "CaseClause"
  | labeled _ _ => "LabeledStatement"
  | name .identifier _ => "Identifier"
  | name .privateName _ => "PrivateName"
  | string _ _ _ => "StringLiteral"
  | number _ _ => "NumericLiteral"
  | bigInt _ => "BigIntLiteral"
  | boolean _ => "BooleanLiteral"
  | regularExpression _ => "RegularExpressionLiteral"
  | template _ _ => "TemplateLiteral"
  | taggedTemplate _ _ => "TaggedTemplate"
  | yield _ _ => "YieldExpression"
  | list .arrayLiteral _ => "ArrayLiteral"
  | list .objectLiteral _ => "ObjectLiteral"
  | list .arrayPattern _ => "ArrayPattern"
  | list .objectPattern _ => "ObjectPattern"
  | list .sequence _ => "Sequence"
  | property _ _ _ _ => "PropertyAssignment"
  | call .call _ _ _ _ => "CallExpression"
  | call .construct _ _ _ _ => "NewExpression"
  | access .property _ _ _ _ => "PropertyAccess"
  | access .element _ _ _ _ => "ElementAccess"
  | unary .before _ _ => "PrefixUnary"
  | unary .after _ _ => "PostfixUnary"
  | binary .binary _ _ _ => "Binary"
  | binary .logical _ _ _ => "Logical"
  | binary .assignment _ _ _ => "Assignment"
  | binary .default _ _ _ => "AssignmentPattern"
  | conditional _ _ _ => "Conditional"

end Node
end Untangle
