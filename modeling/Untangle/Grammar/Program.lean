import Untangle.Grammar.Statement

/-!
# Programs

A program is a script: a list of statements. Its tree is the last node added to the forest.
-/

namespace Untangle

/-!
## Tying the productions together
-/

def Descent.production (d : Descent) : Goal → Parse NodeId
  | .statement => Parse.deeper d.statementProduction
  | .assignment => Parse.deeper d.assignmentProduction
  | .binary bound => d.binaryProduction bound
  | .unary => d.unaryProduction
  | .leftHandSide => d.leftHandSideProduction
  | .newExpression => d.newExpressionProduction
  | .bindingTarget => d.bindingTargetProduction

/-- Answer a goal with productions nested at most `fuel` deep. -/
def parseGoal : (fuel : Nat) → Goal → Parse NodeId
  | 0, _ => Parse.fail .nestedTooDeeply
  | fuel + 1, goal => Descent.production ⟨parseGoal fuel, fuel⟩ goal

/-!
## Programs
-/

/-- `{ a = 1 }` is only valid as a pattern. -/
def isStrayShorthand (f : Forest) (c : Cell) : Bool :=
  match c.node with
  | .property _ _ value _ =>
      let isDefault := f.satisfies value fun n =>
        match n with
        | .binary .default _ _ _ => true
        | _ => false
      let inLiteral := f.satisfies c.parent fun n =>
        match n with
        | .list .objectLiteral _ => true
        | _ => false
      isDefault && inLiteral
  | _ => false

def checkShorthands : Parse Unit := do
  let forest := (← get).forest
  match forest.cells.find? (isStrayShorthand forest) with
  | some cell => Parse.failAt cell.start .shorthandInitializer
  | none => pure ()

def programTurn (d : Descent) : Parse (Parse.Turn NodeId) := do
  if ← Parse.isAt .endOfFile then return .stop else return .item (← d.statement)

def program (d : Descent) : Parse NodeId := do
  Parse.advance
  let statements ← Parse.repeated d.fuel (programTurn d)
  checkShorthands
  Parse.add (.body .program (statements.map some)) 0 (← Parse.tokenEnd)

/-- Each token opens a bounded number of nested goals. -/
def parseFuel (source : String) : Nat :=
  8 * (source.utf8ByteSize + 8)

structure Program where
  forest : Forest
  root : NodeId
  deriving Inhabited

def Program.parse (source : String) : Except SyntaxError Program := do
  let fuel := parseFuel source
  let start : ParseState := ⟨.ofString source, .empty⟩
  let (root, state) ← (program ⟨parseGoal fuel, fuel⟩).run .outermost |>.run start
  return ⟨state.forest, root⟩

end Untangle
