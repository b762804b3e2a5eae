import Untangle.Printing.Layout
import Untangle.Printing.Place
import Untangle.Text.Quoted

/-!
# Printing expressions

A printer lays out one node and asks for the layouts of its children, each at its own place.
-/

namespace Untangle

structure Printer where
  forest : Forest
  quotes : Text.QuoteStyle
  /-- The layout of a child at its place. -/
  child : Place → Slot → Layout

namespace Printer

variable (p : Printer)

def children (place : Place) (slots : List Slot) : List Layout :=
  slots.map (p.child place)

/-- The layout of a child if the slot is filled, with something before it. -/
def optional (before : Layout) (place : Place) (s : Slot) : Layout :=
  if s.isSome then before ++ p.child place s else .nothing

def identifier (s : Slot) : Layout :=
  (p.forest.identifierText? s).getD ""

/-!
## Leaves
-/

def name (form : NameForm) (text : String) : Layout :=
  match form with
  | .identifier => text
  | .privateName => "#" ++ (text : Layout)

def string (value : String) (raw : Option String) : Layout :=
  raw.getD (Text.quoted p.quotes value)

def bare : BareForm → Layout
  | .emptyStatement => ";"
  | .debuggerStatement => "debugger;"
  | .omitted => .nothing
  | .null => "null"
  | .this => "this"
  | .super => "super"
  | .newTarget => "new.target"
  | .importCallee => "import"

/-!
## Functions
-/

/-- Comma-separated expressions in parentheses. -/
def arguments (slots : List Slot) : Layout :=
  .parenthesized (.listed (p.children (.enclosed .assignment) slots))

def lines (place : Place) (slots : List Slot) : Layout :=
  .lines (p.children (place.inner .comma) slots)

def bracedLines (slots : List Slot) : Layout :=
  if slots.isEmpty then "\x7b\x7d" else .braced (p.lines (.enclosed .comma) slots)

/-- The braces of a block. -/
def block (s : Slot) : Layout :=
  match p.forest.node? s with
  | some (.body .block statements) => p.bracedLines statements
  | some (.body .staticBlock statements) => p.bracedLines statements
  | _ => .nothing

def parametersAndBody (parameters : List Slot) (code : Slot) : Layout :=
  p.arguments parameters ++ " " ++ p.block code

def modifier (condition : Bool) (text : String) : Layout :=
  if condition then text else .nothing

def function (ident : Slot) (parameters : List Slot) (code : Slot)
    (isAsync isGenerator : Bool) : Layout :=
  modifier isAsync "async " ++ "function" ++ modifier isGenerator "*" ++ " " ++
    p.identifier ident ++ p.parametersAndBody parameters code

/-- A body that starts with a brace would be read as a block. -/
def arrow (place : Place) (parameters : List Slot) (code : Slot) (isAsync : Bool) : Layout :=
  let result :=
    match p.forest.node? code with
    | some (.body .block _) => p.block code
    | _ =>
        p.child ((place.inner .assignment).wrappedIf (p.forest.startsWithObject code)) code
  modifier isAsync "async " ++ p.arguments parameters ++ " => " ++ result

/-- What stands before the name of a method. -/
def methodModifiers (accessor : Option String) (method : Slot) : Layout :=
  (accessor.elim .nothing fun text => (text : Layout) ++ " ") ++
    match p.forest.node? method with
    | some (.function _ _ _ _ isAsync isGenerator) =>
        modifier isAsync "async " ++ modifier isGenerator "*"
    | _ => .nothing

/-!
## Properties
-/

def propertyName (place : Place) (computed : Bool) (s : Slot) : Layout :=
  let key := p.child (place.inner .assignment) s
  if computed then "[" ++ key ++ "]" else key

def keyAndValue (place : Place) (computed : Bool) (key value : Slot) : Layout :=
  p.propertyName place computed key ++ ": " ++ p.child (place.inner .assignment) value

/-- The short form names the property and its value, or its target, in one word. -/
def shorthand (place : Place) (key value : Slot) : Layout :=
  let name := p.forest.identifierText? key
  match p.forest.node? value with
  | some (.name .identifier text) =>
      if name == some text then p.identifier key else p.keyAndValue place false key value
  | some (.binary .default target _ default) =>
      if name.isSome && name == p.forest.identifierText? target then
        p.identifier key ++ " = " ++ p.child (place.inner .assignment) default
      else p.keyAndValue place false key value
  | _ => p.keyAndValue place false key value

def methodProperty (place : Place) (accessor : Option String) (computed : Bool)
    (key value : Slot) : Layout :=
  match p.forest.node? value with
  | some (.function .expression _ parameters code _ _) =>
      p.methodModifiers accessor value ++ p.propertyName place computed key ++
        p.parametersAndBody parameters code
  | _ => p.keyAndValue place computed key value

def property (place : Place) (kind : PropertyKind) (key value : Slot) (computed : Bool) :
    Layout :=
  match kind with
  | .init => p.keyAndValue place computed key value
  | .shorthand =>
      if computed then p.keyAndValue place computed key value else p.shorthand place key value
  | .method => p.methodProperty place none computed key value
  | .getter => p.methodProperty place (some "get") computed key value
  | .setter => p.methodProperty place (some "set") computed key value

/-!
## Lists
-/

/-- A hole at the end of an array needs a comma of its own. -/
def array (elements : List Slot) : Layout :=
  let endsInHole := elements.getLast?.any fun last =>
    p.forest.satisfies last fun n =>
      match n with
      | .bare .omitted => true
      | _ => false
  "[" ++ .listed (p.children (.enclosed .assignment) elements) ++ modifier endsInHole "," ++ "]"

def object (elements : List Slot) : Layout :=
  if elements.isEmpty then "\x7b\x7d"
  else "\x7b " ++ .listed (p.children (.enclosed .assignment) elements) ++ " \x7d"

/-- Only the first item opens what the sequence opens. -/
def sequence (place : Place) (elements : List Slot) : Layout :=
  match elements with
  | [] => .nothing
  | first :: rest =>
      .listed (p.child (place.leading .assignment) first ::
        p.children (place.inner .assignment) rest)

def templatePieces : List Quasi → List Slot → Layout
  | [], _ => .nothing
  | quasi :: quasis, [] => quasi.raw ++ closing quasis ++ templatePieces quasis []
  | quasi :: quasis, expression :: rest =>
      quasi.raw ++ "$\x7b" ++ p.child (.enclosed .comma) expression ++ closing quasis ++
        templatePieces quasis rest
where
  closing (quasis : List Quasi) : Layout :=
    modifier (!quasis.isEmpty) "\x7d"

def template (quasis : List Quasi) (expressions : List Slot) : Layout :=
  "\x60" ++ p.templatePieces quasis expressions ++ "\x60"

/-!
## Calls and accesses
-/

/-- The object of a call or an access. A link of an optional chain that has ended stays in
parentheses. -/
def chainObject (place : Place) (inChain : Bool) (s : Slot) : Layout :=
  p.child ((place.leading .leftHandSide).wrappedIf (!inChain && p.forest.isChainLink s)) s

def call (place : Place) (callee : Slot) (args : List Slot) (isOptional inChain : Bool) :
    Layout :=
  p.chainObject place inChain callee ++ modifier isOptional "?." ++ p.arguments args

/-- The first arguments belong to `new`, so a call inside the callee is kept in parentheses. -/
def construction (place : Place) (callee : Slot) (args : List Slot) : Layout :=
  let hidesCall := p.forest.memberChainHasCall callee || p.forest.isChainLink callee
  "new " ++ p.child ((place.inner .member).wrappedIf hidesCall) callee ++ p.arguments args

def propertyAccess (place : Place) (object key : Slot) (isOptional inChain : Bool) : Layout :=
  let needsDistance := p.forest.isIntegerLiteral object && !isOptional
  let owner :=
    if needsDistance then p.child ((place.leading .leftHandSide).wrappedIf true) object
    else p.chainObject place inChain object
  owner ++ (if isOptional then "?." else ".") ++ p.propertyName place false key

def elementAccess (place : Place) (object key : Slot) (isOptional inChain : Bool) : Layout :=
  p.chainObject place inChain object ++ (if isOptional then "?.[" else "[") ++
    p.child (.enclosed .comma) key ++ "]"

def taggedTemplate (place : Place) (tag pieces : Slot) : Layout :=
  p.child ((place.leading .member).wrappedIf (p.forest.isChainLink tag)) tag ++
    p.child (place.inner .comma) pieces

/-!
## Operators
-/

def operatorText (operator : TokenKind) : String :=
  operator.text?.getD ""

def before (place : Place) (operator : TokenKind) (operand : Slot) : Layout :=
  let isWord := [.word .typeof, .word .void, .word .delete].contains operator
  let needsSpace := isWord || p.forest.repeatsSign operator operand
  operatorText operator ++ modifier needsSpace " " ++ p.child (place.inner .unary) operand

def after (place : Place) (operator : TokenKind) (operand : Slot) : Layout :=
  p.child (place.leading .leftHandSide) operand ++ operatorText operator

/-- What the operands of a binary operator must bind like. The left operand of `**` may not be
a unary expression. -/
def operandMinima (operator : TokenKind) (precedence : Precedence) : Precedence × Precedence :=
  if operator.isRightAssociative then (.update, precedence)
  else (precedence, precedence.tighter)

def binary (place : Place) (left : Slot) (operator : TokenKind) (right : Slot) : Layout :=
  match operator.binaryPrecedence? with
  | none => .nothing
  | some precedence =>
      let (leftMinimum, rightMinimum) := operandMinima operator precedence
      let operand := fun (at' : Place) (s : Slot) =>
        p.child (at'.wrappedIf (p.forest.mixesCoalesce operator s)) s
      operand (place.leading leftMinimum) left ++ " " ++ operatorText operator ++ " " ++
        operand (place.inner rightMinimum) right

def assignment (place : Place) (left : Slot) (operator : TokenKind) (right : Slot) : Layout :=
  p.child (place.leading .leftHandSide) left ++ " " ++ operator.text?.getD "=" ++ " " ++
    p.child (place.inner .assignment) right

def conditional (place : Place) (condition whenTrue whenFalse : Slot) : Layout :=
  p.child (place.leading .coalesce) condition ++ " ? " ++
    p.child (.enclosed .assignment) whenTrue ++ " : " ++
    p.child (place.inner .assignment) whenFalse

def yield (place : Place) (argument : Slot) (delegate : Bool) : Layout :=
  (if delegate then "yield*" else "yield") ++ p.optional " " (place.inner .assignment) argument

end Printer
end Untangle
