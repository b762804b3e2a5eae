import Untangle.Grammar.Function

/-!
# Classes
-/

namespace Untangle
namespace Descent

open Parse

variable (d : Descent)

/-!
## Members
-/

/-- `static { … }`, read from its brace. -/
def staticBlock (start : Nat) : Parse NodeId := do
  let _ ← expectMark .openBrace
  let statements ← inFunction false false (repeated d.fuel d.blockTurn)
  let stop ← expectMark .closeBrace
  add (.body .staticBlock (statements.map some)) start stop

/-- `name = value;`, read from behind the name. -/
def classField (start : Nat) (key : NodeId) (computed isStatic : Bool) : Parse NodeId := do
  let (value, stop) ←
    if ← eatMark .assign then do
      let value ← inFunction false false (allowingIn d.assignment)
      pure (some value, ← endOf value)
    else do
      pure (none, ← endOf key)
  semicolon
  add (.field (some key) value computed isStatic) start stop

def isConstructorKey (key : NodeId) : Parse Bool := do
  match ← node? key with
  | some (.name .identifier text) => return text == "constructor"
  | some (.string value _ _) => return value == "constructor"
  | _ => return false

def methodKind (h : MethodHead) (isConstructor : Bool) : MethodKind :=
  match h.accessor with
  | some true => .getter
  | some false => .setter
  | none => if isConstructor then .construct else .method

/-- A class member. `hasConstructor` tells whether one was seen before, and the answer whether
this is one. -/
def classMember (hasConstructor : Bool) : Parse (NodeId × Bool) := do
  let start ← offset
  let t ← token
  let isStatic := t.isContextual "static" && (← scanner).staticModifies
  if isStatic then advance
  if isStatic && (← isAtMark .openBrace) then
    return (← d.staticBlock start, false)
  else
    let head ← methodHead
    let (key, computed) ← d.propertyName true
    let isConstructorName := !computed && (← isConstructorKey key)
    if !(← isAtMark .openParen) && head.isPlain then
      if isConstructorName then failAt start .constructorField
      else return (← d.classField start key computed isStatic, false)
    else
      let isConstructor := isConstructorName && !isStatic
      if isConstructor && !head.isPlain then failAt start .specialConstructor
      else if isConstructor && hasConstructor then failAt start .repeatedConstructor
      else
        let value ← d.methodFunction head
        checkAccessor head value
        let kind := methodKind head isConstructor
        let member ←
          add (.method kind (some key) (some value) computed isStatic) start (← endOf value)
        return (member, isConstructor)

/-- Members up to the closing brace; stray semicolons are skipped. -/
def classMembers : (fuel : Nat) → Bool → List NodeId → Parse (List NodeId)
  | 0, _, _ => fail .nestedTooDeeply
  | fuel + 1, hasConstructor, reversed => do
      match ← kind with
      | .mark .closeBrace => return reversed.reverse
      | .mark .semicolon =>
          advance
          classMembers fuel hasConstructor reversed
      | .endOfFile => fail (.expected Punctuator.closeBrace.text)
      | _ =>
          let (member, isConstructor) ← d.classMember hasConstructor
          classMembers fuel (hasConstructor || isConstructor) (member :: reversed)

/-!
## Classes
-/

/-- What follows the name of a class. -/
def classRest (form : ClassForm) (name : Slot) (start : Nat) : Parse NodeId := do
  let heritage ←
    if ← eat (.word .«extends») then do
      pure (some (← d.parse .leftHandSide))
    else pure none
  let _ ← expectMark .openBrace
  let members ← d.classMembers d.fuel false []
  let stop ← expectMark .closeBrace
  add (.classLike form name heritage (members.map some)) start stop

def classDeclaration : Parse NodeId := do
  let start ← offset
  let _ ← expect (.word .«class»)
  let name ← identifier
  d.classRest .declaration (some name) start

def classExpression : Parse NodeId := do
  let start ← offset
  let _ ← expect (.word .«class»)
  let name ← if ← isAtIdentifier then do pure (some (← identifier)) else pure none
  d.classRest .expression name start

end Descent
end Untangle
