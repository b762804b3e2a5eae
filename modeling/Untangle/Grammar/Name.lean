import Untangle.Grammar.Lookahead
import Untangle.Grammar.Parse

/-!
# Names in the grammar
-/

namespace Untangle
namespace Parse

def isAtWord (word : String) : Parse Bool :=
  return (← token).isContextual word

/-- An identifier, or a word that may be one in this context. -/
def isAtIdentifier : Parse Bool := do
  match ← kind with
  | .identifier | .word .«let» => return true
  | .word .«yield» => return !(← read).inGenerator
  | _ => return false

/-- The word `await` as an operator. -/
def isAtAwait : Parse Bool := do
  return (← read).inAsync && (← token).isContextual "await"

/-- Any identifier or keyword, as after a dot. -/
def anyName : Parse NodeId := do
  let t ← token
  advance
  add (.name .identifier t.value) t.start.offset t.next.offset

/-- Whether an escaped spelling hides a word that can never be an identifier. -/
def hidesKeyword (t : Token) : Bool :=
  t.escaped &&
    match Keyword.ofText? t.value with
    | none | some .«let» | some .«yield» => false
    | some _ => true

def identifier : Parse NodeId := do
  let t ← token
  if ← isAtIdentifier then
    if hidesKeyword t then fail .escapedKeyword
    else if (← read).inAsync && t.value == "await" then fail .awaitAsName
    else anyName
  else if t.kind.isKeyword then fail (.reservedWord t.value)
  else fail .identifierExpected

def privateName : Parse NodeId := do
  let t ← token
  let _ ← expect .privateName
  add (.name .privateName t.value) t.start.offset t.next.offset

/-- The name after a dot. -/
def memberName : Parse NodeId := do
  let k ← kind
  if k == .privateName then privateName
  else if k.isName then anyName
  else fail .identifierExpected

/-- A second node for an identifier, as the value of a shorthand property. -/
def copyIdentifier (i : NodeId) : Parse NodeId := do
  let text := ((← get).forest.identifierText? (some i)).getD ""
  add (.name .identifier text) (← startOf i) (← endOf i)

/-!
## Ends of statements
-/

/-- A semicolon, or a place where it may be left out. -/
def semicolon : Parse Unit := do
  if ← eatMark .semicolon then return ()
  else if (← token).endsStatement then return ()
  else fail (.expected ";")

end Parse
end Untangle
