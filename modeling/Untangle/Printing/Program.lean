import Untangle.Grammar.Program
import Untangle.Printing.Expression

/-!
# Printing statements and trees

Every statement starts on a line of its own unless it belongs to the statement before it. Any node
of a forest has a layout at any place, with the parentheses that the place asks for.
-/

namespace Untangle
namespace Printer

section Statements

variable (p : Printer)

/-!
## Nested statements
-/

/-- The body of an `if`, a loop or a label. -/
def embedded (place : Place) (s : Slot) : Layout :=
  match p.forest.node? s with
  | some (.bare .emptyStatement) => ";"
  | none => ";"
  | some _ => " " ++ p.child (place.inner .comma) s

/-- A nested statement that is always put into braces. -/
def embeddedInBraces (place : Place) (s : Slot) : Layout :=
  match p.forest.node? s with
  | some (.body .block _) => " " ++ p.block s
  | _ => " " ++ .braced (p.child (place.inner .comma) s)

/-!
## Expressions and declarations
-/

/-- An object pattern may not be put into parentheses on its own, so the whole expression is. -/
def expressionStatement (place : Place) (s : Slot) : Layout :=
  let inside := place.inner .comma
  if p.forest.startsWithObjectPattern s then "(" ++ p.child inside s ++ ");"
  else p.child { inside with opensStatement := true } s ++ ";"

def declarator (place : Place) (target initializer : Slot) : Layout :=
  p.child (place.inner .assignment) target ++
    p.optional " = " (place.inner .assignment) initializer

def declarators (place : Place) (kind : VariableKind) (slots : List Slot) : Layout :=
  let declared := fun s =>
    match p.forest.node? s with
    | some (.declarator _ _) => p.child (place.inner .comma) s
    | _ => .nothing
  kind.text ++ " " ++ .listed (slots.map declared)

/-!
## Control flow
-/

def conditionalStatement (place : Place) (condition whenTrue whenFalse : Slot) : Layout :=
  let head := "if (" ++ p.child (place.inner .comma) condition ++ ")"
  if whenFalse.isNone then head ++ p.embedded place whenTrue
  else
    let consequent :=
      if p.forest.endsWithOpenIf whenTrue then p.embeddedInBraces place whenTrue
      else p.embedded place whenTrue
    head ++ consequent ++ " else" ++ p.embedded place whenFalse

/-- The start of a loop head: declarations without their semicolon, or an expression. -/
def loopTarget (place : Place) (minimum : Precedence) (s : Slot) : Layout :=
  let inside := { place.inner minimum with noIn := true }
  match p.forest.node? s with
  | some (.variableStatement kind slots) => p.declarators inside kind slots
  | _ => p.child inside s

def forLoop (place : Place) (initializer condition increment statement : Slot) : Layout :=
  "for (" ++ p.loopTarget place .comma initializer ++ ";" ++
    p.optional " " (place.inner .comma) condition ++ ";" ++
    p.optional " " (place.inner .comma) increment ++ ")" ++ p.embedded place statement

def iteration (place : Place) (form : IterationForm) (target subject statement : Slot)
    (isAwait : Bool) : Layout :=
  let source :=
    match form with
    | .overKeys => " in " ++ p.child (place.inner .comma) subject
    | .overValues => " of " ++ p.child (place.inner .assignment) subject
  (if isAwait then "for await (" else "for (") ++ p.loopTarget place .leftHandSide target ++
    source ++ ")" ++ p.embedded place statement

def guarded (place : Place) (form : GuardForm) (condition statement : Slot) : Layout :=
  let test := p.child (place.inner .comma) condition
  match form with
  | .whileLoop => "while (" ++ test ++ ")" ++ p.embedded place statement
  | .doLoop => "do" ++ p.embedded place statement ++ " while (" ++ test ++ ");"
  | .withObject => "with (" ++ test ++ ")" ++ p.embedded place statement

def jump (form : JumpForm) (label : Slot) : Layout :=
  let keyword : Layout :=
    match form with
    | .break => "break"
    | .continue => "continue"
  keyword ++ (if label.isSome then " " ++ p.identifier label else .nothing) ++ ";"

def catchClause (place : Place) (binding block : Slot) : Layout :=
  let parameter : Layout :=
    if binding.isSome then .parenthesized (p.child (place.inner .assignment) binding) ++ " "
    else .nothing
  "catch " ++ parameter ++ p.block block

def tryStatement (place : Place) (block handler finalizer : Slot) : Layout :=
  let handled : Layout :=
    match p.forest.node? handler with
    | some (.catchClause _ _) => p.child (place.inner .comma) handler
    | _ => .nothing
  let finalized : Layout :=
    if finalizer.isSome then " finally " ++ p.block finalizer else .nothing
  "try " ++ p.block block ++ (if handler.isSome then " " ++ handled else .nothing) ++ finalized

def caseClause (place : Place) (test : Slot) (statements : List Slot) : Layout :=
  let label :=
    if test.isSome then "case " ++ p.child (place.inner .comma) test ++ ":" else "default:"
  label ++ if statements.isEmpty then .nothing else .nest (.newline ++ p.lines place statements)

def switch (place : Place) (subject : Slot) (clauses : List Slot) : Layout :=
  let clause := fun s =>
    match p.forest.node? s with
    | some (.caseClause _ _) => p.child (place.inner .comma) s
    | _ => .nothing
  let cases : Layout :=
    if clauses.isEmpty then "\x7b\x7d" else .braced (.lines (clauses.map clause))
  "switch (" ++ p.child (place.inner .comma) subject ++ ") " ++ cases

/-!
## Classes
-/

def classLike (place : Place) (ident heritage : Slot) (members : List Slot) : Layout :=
  "class" ++ (if ident.isSome then " " ++ p.identifier ident else .nothing) ++
    p.optional " extends " (place.inner .leftHandSide) heritage ++ " " ++ p.bracedLines members

def method (place : Place) (kind : MethodKind) (key value : Slot) (computed isStatic : Bool) :
    Layout :=
  let accessor :=
    match kind with
    | .getter => some "get"
    | .setter => some "set"
    | .method | .construct => none
  let code :=
    match p.forest.node? value with
    | some (.function _ _ parameters code _ _) => p.parametersAndBody parameters code
    | _ => .nothing
  modifier isStatic "static " ++ p.methodModifiers accessor value ++
    p.propertyName place computed key ++ code

def field (place : Place) (key value : Slot) (computed isStatic : Bool) : Layout :=
  modifier isStatic "static " ++ p.propertyName place computed key ++
    p.optional " = " (place.inner .assignment) value ++ ";"

end Statements

/-!
## One node
-/

def operand (p : Printer) (place : Place) (form : OperandForm) (s : Slot) : Layout :=
  match form with
  | .expressionStatement => p.expressionStatement place s
  | .returnStatement => "return" ++ p.optional " " (place.inner .comma) s ++ ";"
  | .throwStatement => "throw" ++ p.optional " " (place.inner .comma) s ++ ";"
  | .spread | .rest => "..." ++ p.child (place.inner .assignment) s
  | .await => "await " ++ p.child (place.inner .unary) s

def list (p : Printer) (place : Place) (form : ListForm) (elements : List Slot) : Layout :=
  match form with
  | .arrayLiteral | .arrayPattern => p.array elements
  | .objectLiteral | .objectPattern => p.object elements
  | .sequence => p.sequence place elements

def body (p : Printer) (place : Place) (form : BodyForm) (statements : List Slot) : Layout :=
  match form with
  | .program => p.lines place statements
  | .block => p.bracedLines statements
  | .staticBlock => "static " ++ p.bracedLines statements

/-- The layout of a node without parentheses around it. -/
def plain (p : Printer) (place : Place) : Node Slot → Layout
  | .bare form => bare form
  | .body form statements => p.body place form statements
  | .variableStatement kind slots => p.declarators place kind slots ++ ";"
  | .declarator target initializer => p.declarator place target initializer
  | .function .arrow _ parameters code isAsync _ => p.arrow place parameters code isAsync
  | .function _ ident parameters code isAsync isGenerator =>
      p.function ident parameters code isAsync isGenerator
  | .classLike _ ident heritage members => p.classLike place ident heritage members
  | .method kind key value computed isStatic => p.method place kind key value computed isStatic
  | .field key value computed isStatic => p.field place key value computed isStatic
  | .operand form expression => p.operand place form expression
  | .conditionalStatement condition whenTrue whenFalse =>
      p.conditionalStatement place condition whenTrue whenFalse
  | .forLoop initializer condition increment statement =>
      p.forLoop place initializer condition increment statement
  | .iteration form target subject statement isAwait =>
      p.iteration place form target subject statement isAwait
  | .guarded form condition statement => p.guarded place form condition statement
  | .jump form label => p.jump form label
  | .tryStatement block handler finalizer => p.tryStatement place block handler finalizer
  | .catchClause binding block => p.catchClause place binding block
  | .switch subject clauses => p.switch place subject clauses
  | .caseClause test statements => p.caseClause place test statements
  | .labeled label statement => p.identifier label ++ ":" ++ p.embedded place statement
  | .name form text => name form text
  | .string value raw _ => p.string value raw
  | .number value raw => Forest.numberText value raw
  | .bigInt raw => raw
  | .boolean value => if value then "true" else "false"
  | .regularExpression text => text
  | .template quasis expressions => p.template quasis expressions
  | .taggedTemplate tag pieces => p.taggedTemplate place tag pieces
  | .yield argument delegate => p.yield place argument delegate
  | .list form elements => p.list place form elements
  | .property kind key value computed => p.property place kind key value computed
  | .call .call callee args isOptional inChain => p.call place callee args isOptional inChain
  | .call .construct callee args _ _ => p.construction place callee args
  | .access .property object key isOptional inChain =>
      p.propertyAccess place object key isOptional inChain
  | .access .element object key isOptional inChain =>
      p.elementAccess place object key isOptional inChain
  | .unary .before operator argument => p.before place operator argument
  | .unary .after operator argument => p.after place operator argument
  | .binary .binary left operator right => p.binary place left operator right
  | .binary .logical left operator right => p.binary place left operator right
  | .binary .assignment left operator right => p.assignment place left operator right
  | .binary .default left operator right =>
      p.assignment (place.inner .assignment) left operator right
  | .conditional condition whenTrue whenFalse => p.conditional place condition whenTrue whenFalse

/-!
## Parentheses
-/

/-- An `in` operator, which would end the head of a loop. -/
def isInOperator : Node Slot → Bool
  | .binary .binary _ operator _ => operator == .word .in
  | _ => false

def needsParentheses (f : Forest) (place : Place) (cell : Cell) : Bool :=
  place.isWrapped
    || (place.opensStatement && f.isAmbiguousStart cell)
    || cell.node.precedence < place.minimum
    || (place.noIn && isInOperator cell.node)

def cell (p : Printer) (place : Place) (c : Cell) : Layout :=
  if needsParentheses p.forest place c then .parenthesized (p.plain place.unwrapped c.node)
  else p.plain place c.node

end Printer

namespace Forest

/-!
## Whole trees
-/

/-- The layout of a subtree; paths longer than the fuel are cut. -/
def layout (f : Forest) (quotes : Text.QuoteStyle) : Nat → Place → Slot → Layout
  | 0, _, _ => .nothing
  | fuel + 1, place, s =>
      match f.cell? s with
      | none => .nothing
      | some c => Printer.cell ⟨f, quotes, f.layout quotes fuel⟩ place c

end Forest

/-- How a tree is printed. -/
structure Style where
  /-- Spaces per level of indentation. -/
  indent : Nat := 2
  /-- The quotes of strings that no source text stands for. -/
  quotes : Text.QuoteStyle := .double
  deriving Repr, DecidableEq, Inhabited

/-- The text of a program, a statement or an expression. -/
def Forest.print (f : Forest) (style : Style) (root : Slot) : String :=
  (f.layout style.quotes (f.size + 1) (.enclosed .comma) root).render style.indent

def Program.print (program : Program) (style : Style) : String :=
  program.forest.print style (some program.root)

end Untangle
