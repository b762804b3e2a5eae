import Untangle.Grammar.Name

/-!
# Patterns

Declarations and parameters read patterns directly. Assignments and iteration heads first read
an array or object literal, which becomes a pattern once the operator behind it shows what it
was.
-/

namespace Untangle

/-- Expressions that can be assigned to, updated, or iterated into. Optional chains never
can. -/
def Node.isTarget {α : Type} : Node α → Bool
  | .name .identifier _ => true
  | .access _ _ _ _ inChain => !inChain
  | _ => false

namespace Descent

open Parse

variable (d : Descent)

def assignment : Parse NodeId :=
  d.parse .assignment

def bindingTarget : Parse NodeId :=
  d.parse .bindingTarget

/-!
## Property names
-/

/-- A literal key keeps the literal's node. -/
def literalKey : Parse NodeId := do
  let t ← token
  advance
  let node : Node Slot :=
    match t.kind with
    | .string => .string t.value (some t.text) t.loneSurrogate
    | .bigInt => .bigInt t.value
    | _ => .number t.number (some t.text)
  add node t.start.offset t.next.offset

/-- The key of an object or class member, and whether it is computed. -/
def propertyName (allowPrivate : Bool) : Parse (NodeId × Bool) := do
  let k ← kind
  match k with
  | .mark .openBracket =>
      advance
      let key ← allowingIn d.assignment
      let _ ← expectMark .closeBracket
      return (key, true)
  | .string | .numeric | .bigInt => return (← literalKey, false)
  | .privateName =>
      if allowPrivate then return (← privateName, false) else fail .propertyExpected
  | _ => if k.isName then return (← anyName, false) else fail .propertyExpected

/-!
## Binding patterns
-/

/-- `target = value`, read from behind the equals sign. -/
def defaultValue (target : NodeId) : Parse NodeId := do
  let start ← startOf target
  let value ← allowingIn d.assignment
  add (.binary .default (some target) (.mark .assign) (some value)) start (← endOf value)

/-- A target with an optional default. -/
def bindingElement : Parse NodeId := do
  let target ← d.bindingTarget
  if ← eatMark .assign then d.defaultValue target else return target

def restElement : Parse NodeId := do
  let start ← offset
  let _ ← expectMark .ellipsis
  let target ← d.bindingTarget
  if ← isAtMark .assign then fail .restElementInitializer
  else add (.operand .rest (some target)) start (← endOf target)

/-- A hole in an array, before its comma. -/
def hole : Parse NodeId := do
  let start ← offset
  let i ← add (.bare .omitted) start start
  advance
  return i

def arrayBindingTurn : Parse (Turn NodeId) := do
  match ← kind with
  | .mark .closeBracket => return .stop
  | .mark .comma => return .item (← hole)
  | .mark .ellipsis =>
      let rest ← d.restElement
      if ← isAtMark .closeBracket then return .last rest else fail .restElementNotLast
  | _ => beforeComma (← d.bindingElement)

def arrayBinding : Parse NodeId := do
  let start ← offset
  let _ ← expectMark .openBracket
  let elements ← repeated d.fuel d.arrayBindingTurn
  let stop ← expectMark .closeBracket
  add (.list .arrayPattern (elements.map some)) start stop

/-- The rest of an object takes a plain name. -/
def objectRest : Parse NodeId := do
  let start ← offset
  advance
  let target ← identifier
  let rest ← add (.operand .rest (some target)) start (← endOf target)
  if ← isAtMark .closeBrace then return rest else fail .restElementNotLast

/-- `key: target`, `key: target = value`, `name` or `name = value`. -/
def bindingProperty : Parse NodeId := do
  let start ← offset
  let isPlain ← isAtIdentifier
  if isPlain && (← isAtAwait) then fail .awaitAsName
  else
    let (key, computed) ← d.propertyName false
    let property := fun (kind : PropertyKind) (value : NodeId) => do
      add (.property kind (some key) (some value) computed) start (← endOf value)
    if ← eatMark .colon then property .init (← d.bindingElement)
    else if isPlain && !computed then
      let value ← copyIdentifier key
      if ← eatMark .assign then property .shorthand (← d.defaultValue value)
      else property .shorthand value
    else fail (.expected ":")

def objectBindingTurn : Parse (Turn NodeId) := do
  match ← kind with
  | .mark .closeBrace => return .stop
  | .mark .ellipsis => return .last (← objectRest)
  | _ => beforeComma (← d.bindingProperty)

def objectBinding : Parse NodeId := do
  let start ← offset
  let _ ← expectMark .openBrace
  let properties ← repeated d.fuel d.objectBindingTurn
  let stop ← expectMark .closeBrace
  add (.list .objectPattern (properties.map some)) start stop

/-- A declared name, or a pattern of them. -/
def bindingTargetProduction : Parse NodeId := do
  match ← kind with
  | .mark .openBrace => d.objectBinding
  | .mark .openBracket => d.arrayBinding
  | _ => identifier

end Descent

/-!
## Literals that become patterns
-/

namespace Pattern

open Parse

def isTargetAt (i : NodeId) : Parse Bool :=
  return (← get).forest.satisfies (some i) Node.isTarget

def invalidAt {α : Type} (i : NodeId) : Parse α := do
  failAt (← startOf i) .invalidPatternTarget

/-- The value of `key: value`, or an array element. An assignment becomes a target with a
default, and anything else goes through `convert`. -/
def convertElement (convert : NodeId → Parse Unit) (element : NodeId) : Parse Unit := do
  let value :=
    match ← node? element with
    | some (.property _ _ (some value) _) => value
    | _ => element
  match ← node? value with
  | some (.binary .assignment left (.mark .assign) right) =>
      setNode value (.binary .default left (.mark .assign) right)
  | _ => convert value

/-- The rest element of an array may be a pattern, that of an object a simple target only. -/
def convertRest (convert : NodeId → Parse Unit) (inObject isLast : Bool)
    (element target : NodeId) : Parse Unit := do
  if !isLast then failAt (← startOf element) .restElementNotLast
  else
    if inObject then
      if ← isTargetAt target then pure () else invalidAt target
    else convert target
    setNode element (.operand .rest (some target))

def convertMember (convert : NodeId → Parse Unit) (inObject isLast : Bool)
    (element : NodeId) : Parse Unit := do
  match ← node? element, inObject with
  | some (.operand .spread (some target)), _ =>
      convertRest convert inObject isLast element target
  | some (.property .init _ _ _), true => convertElement convert element
  | some (.property .shorthand _ _ _), true => pure ()
  | some (.bare .omitted), false => pure ()
  | some _, false => convertElement convert element
  | _, _ => invalidAt element

def convertMembers (convert : NodeId → Parse Unit) (inObject : Bool) : List Slot → Parse Unit
  | [] => pure ()
  | element :: rest => do
      match element with
      | some i => convertMember convert inObject rest.isEmpty i
      | none => pure ()
      convertMembers convert inObject rest

/-- Turn a literal, and everything nested in it, into a pattern. -/
def convertWith : (depth : Nat) → NodeId → Parse Unit
  | 0, _ => fail .nestedTooDeeply
  | depth + 1, i => do
      match ← node? i with
      | some (.list .objectLiteral elements) =>
          convertMembers (convertWith depth) true elements
          setNode i (.list .objectPattern elements)
      | some (.list .arrayLiteral elements) =>
          convertMembers (convertWith depth) false elements
          setNode i (.list .arrayPattern elements)
      | some node => if node.isTarget then pure () else invalidAt i
      | none => invalidAt i

def convert (i : NodeId) : Parse Unit := do
  convertWith (Limits.parseDepth - (← read).depth) i

end Pattern
end Untangle
