import Untangle.Rewrite.Basic
import Untangle.Rewrite.Shape
import Untangle.Text.CharClass

/-!
# Reads of packed arrays

A packed array holds strings and numbers, and the program only ever reads its elements. Reads at
constant indices are replaced by the elements, and an array that is no longer read is removed.
Methods named by a string are then called by name.
-/

namespace Untangle

structure PackedArray where
  declaration : NodeId
  elements : List Slot
  deriving Repr, DecidableEq, Inhabited

/-- One use of a packed array. -/
structure PackedRead where
  array : PackedArray
  reference : NodeId
  deriving Repr, DecidableEq, Inhabited

inductive ReadOutcome
  | replaced
  /-- The index is not a number yet. -/
  | waiting
  | skipped
  deriving Repr, DecidableEq

namespace Rewrite

/-!
## Reads
-/

/-- The packed arrays of a tree with their uses. -/
def packedReads (f : Forest) (b : Bindings) : List PackedRead :=
  b.bindings.toList.flatMap fun binding =>
    match binding.packedElements? f Node.isStringOrNumber with
    | some elements =>
        binding.references.toList.map fun r => ⟨⟨binding.declaration, elements⟩, r.node⟩
    | none => []

def replaceRead (read : PackedRead) : Edit ReadOutcome := do
  let f ← get
  let access := f.parent (some read.reference)
  match f.node? access with
  | some (.access .element _ index _ _) =>
      match f.node? index with
      | some (.number value _) =>
          match (arrayIndex? value read.array.elements.length).bind (read.array.elements[·]?) with
          | some element =>
              let done ← Edit.replace access (← Edit.copy element)
              return if done then .replaced else .skipped
          | none => return .skipped
      | _ => return .waiting
  | _ => return .skipped

/-- Try every read once; the answers are the reads that wait and the arrays that were read. -/
def replaceReadsOnce : List PackedRead → Edit (List PackedRead × List NodeId)
  | [] => return ([], [])
  | read :: rest => do
      let outcome ← replaceRead read
      let (waiting, replaced) ← replaceReadsOnce rest
      match outcome with
      | .replaced => return (waiting, read.array.declaration :: replaced)
      | .waiting => return (read :: waiting, replaced)
      | .skipped => return (waiting, replaced)

/-- Reads whose index is another read are replaced after it. The answer lists the arrays that
were read. -/
def replaceReads : (fuel : Nat) → List PackedRead → Edit (List NodeId)
  | 0, _ => return []
  | fuel + 1, reads => do
      let (waiting, replaced) ← replaceReadsOnce reads
      if waiting.length = reads.length || waiting.isEmpty then return replaced
      else return replaced ++ (← replaceReads fuel waiting)

/-!
## Arrays
-/

/-- Remove an array that nothing refers to any more. -/
def removeUnreadArray (b : Bindings) (declaration : NodeId) : Edit Bool := do
  let isUnused := (b.ofDeclaration (some declaration)).any fun i => (b.references i).isEmpty
  if isUnused then Edit.removeDeclarator (some declaration) else return false

/-!
## Methods
-/

/-- The object and the name of a method that is called as `object["name"]`. -/
def namedMethod? (f : Forest) (i : NodeId) : Option (Slot × String × Bool × Bool) :=
  let isCallee := f.satisfies (f.parent (some i)) fun n =>
    match n with
    | .call .call callee _ _ _ => callee == some i
    | _ => false
  match isCallee, f.node? (some i) with
  | true, some (.access .element object key isOptional inChain) =>
      match f.node? key with
      | some (.string name _ _) =>
          if Text.isIdentifierName name then some (object, name, isOptional, inChain) else none
      | _ => none
  | _, _ => none

def callByName (i : NodeId) : Edit Bool := do
  match ← Edit.look (namedMethod? · i) with
  | none => return false
  | some (object, name, isOptional, inChain) =>
      if ← Edit.detach object then
        let key ← modifyGet fun f => f.addIdentifier name
        let access ← modifyGet fun f =>
          f.addNew (.access .property object (some key) isOptional inChain)
        Edit.replace (some i) (some access)
      else return false

def unpackArrays (root : Slot) : Rewrite Bool := do
  let bindings ← Rewrite.bind root
  let f ← get
  let reads := packedReads f bindings
  let replaced ← replaceReads (reads.length + 1) reads
  if !replaced.isEmpty then
    let rebound ← Rewrite.bind root
    let arrays := (reads.map fun read => read.array.declaration).eraseDups
    let _ ← Edit.changeAll (removeUnreadArray rebound) (arrays.filter replaced.contains)
  let sites := (← get).preorder root
  let named ← Edit.changeAll callByName sites
  return !replaced.isEmpty || named

end Rewrite
end Untangle
