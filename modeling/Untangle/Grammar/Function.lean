import Untangle.Grammar.Pattern

/-!
# Functions and methods
-/

namespace Untangle
namespace Descent

open Parse

variable (d : Descent)

def statement : Parse NodeId :=
  d.parse .statement

/-!
## Blocks
-/

/-- One statement, or the brace that closes the block. -/
def blockTurn : Parse (Turn NodeId) := do
  match ← kind with
  | .mark .closeBrace => return .stop
  | .endOfFile => fail (.expected Punctuator.closeBrace.text)
  | _ => return .item (← d.statement)

def block : Parse NodeId := do
  let start ← offset
  let _ ← expectMark .openBrace
  let statements ← repeated d.fuel d.blockTurn
  let stop ← expectMark .closeBrace
  add (.body .block (statements.map some)) start stop

/-!
## Parameters and bodies
-/

def parameterTurn : Parse (Turn NodeId) := do
  match ← kind with
  | .mark .closeParen => return .stop
  | .mark .ellipsis =>
      let rest ← d.restElement
      if ← isAtMark .comma then fail .restParameterNotLast else return .last rest
  | _ => beforeComma (← d.bindingElement)

def parameters : Parse (List Slot) := do
  let _ ← expectMark .openParen
  let items ← repeated d.fuel d.parameterTurn
  let _ ← expectMark .closeParen
  return items.map some

def functionBody : Parse NodeId :=
  allowingIn d.block

/-- Parameters and body of a function with the given name. -/
def functionRest (form : FunctionForm) (name : Slot) (start : Nat)
    (isAsync isGenerator : Bool) : Parse NodeId := do
  let (parameters, body) ← inFunction isAsync isGenerator do
    let parameters ← d.parameters
    let body ← d.functionBody
    return (parameters, body)
  add (.function form name parameters (some body) isAsync isGenerator) start (← endOf body)

def functionDeclaration (isAsync : Bool) : Parse NodeId := do
  let start ← offset
  if isAsync then advance
  let _ ← expect (.word .«function»)
  let isGenerator ← eatMark .times
  let name ← identifier
  d.functionRest .declaration (some name) start isAsync isGenerator

/-- The name of a function expression already belongs to the function. -/
def functionExpression (isAsync : Bool) : Parse NodeId := do
  let start ← offset
  if isAsync then advance
  let _ ← expect (.word .«function»)
  let isGenerator ← eatMark .times
  let name ← inFunction isAsync isGenerator do
    if ← isAtIdentifier then return some (← identifier) else return none
  d.functionRest .expression name start isAsync isGenerator

/-!
## Methods
-/

/-- The modifiers in front of a method name. -/
structure MethodHead where
  isAsync : Bool
  isGenerator : Bool
  /-- `get`, with `true`, or `set`. -/
  accessor : Option Bool

def methodHead : Parse MethodHead := do
  let t ← token
  let isAsync := t.isContextual "async" && (← scanner).asyncModifies
  if isAsync then advance
  let isGenerator ← eatMark .times
  let word ← token
  let isAccessor := !isAsync && !isGenerator &&
    (word.isContextual "get" || word.isContextual "set") && (← scanner).accessorFollows
  if isAccessor then
    advance
    return ⟨isAsync, isGenerator, some (word.value == "get")⟩
  else return ⟨isAsync, isGenerator, none⟩

def MethodHead.isPlain (h : MethodHead) : Bool :=
  !h.isAsync && !h.isGenerator && h.accessor.isNone

/-- Parameters and body of a method, as a function without a name. -/
def methodFunction (h : MethodHead) : Parse NodeId := do
  d.functionRest .expression none (← offset) h.isAsync h.isGenerator

/-- A getter has no parameters and a setter has one. -/
def checkAccessor (h : MethodHead) (method : NodeId) : Parse Unit := do
  let count :=
    match ← node? method with
    | some (.function _ _ parameters _ _ _) => parameters.length
    | _ => 0
  match h.accessor with
  | some true => if count = 0 then pure () else failAt (← startOf method) .getterParameters
  | some false => if count = 1 then pure () else failAt (← startOf method) .setterParameters
  | none => pure ()

end Descent
end Untangle
