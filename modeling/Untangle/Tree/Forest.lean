import Untangle.Tree.Node

/-!
# Forests

A forest stores the nodes of one or more trees by number. Child slots refer to nodes by number
and every node records its parent. Nodes are never freed: one that is taken out of its tree
stays in the forest, unreachable from the root.
-/

namespace Untangle

abbrev NodeId := Nat

/-- The content of a child slot. A slot may also name a node that does not exist. -/
abbrev Slot := Option NodeId

structure Cell where
  node : Node Slot
  /-- The source span, in byte offsets; zero for nodes that no source text stands for. -/
  start : Nat
  stop : Nat
  parent : Slot
  deriving Inhabited

structure Forest where
  cells : Array Cell
  deriving Inhabited

namespace Forest

def empty : Forest :=
  ⟨#[]⟩

def size (f : Forest) : Nat :=
  f.cells.size

/-!
## Queries
-/

def cell? (f : Forest) (s : Slot) : Option Cell :=
  s.bind fun i => f.cells[i]?

def node? (f : Forest) (s : Slot) : Option (Node Slot) :=
  (f.cell? s).map Cell.node

def contains (f : Forest) (s : Slot) : Bool :=
  (f.cell? s).isSome

def parent (f : Forest) (s : Slot) : Slot :=
  (f.cell? s).bind Cell.parent

/-- The nodes that the slots of a node refer to, in source order. -/
def childrenOf (n : Node Slot) : List NodeId :=
  n.slots.filterMap id

def children (f : Forest) (s : Slot) : List NodeId :=
  ((f.node? s).map childrenOf).getD []

def identifierText? (f : Forest) (s : Slot) : Option String :=
  (f.node? s).bind Node.identifierText?

def isIdentifierNamed (f : Forest) (s : Slot) (text : String) : Bool :=
  f.identifierText? s == some text

/-- The node at a slot satisfies a predicate. -/
def satisfies (f : Forest) (s : Slot) (p : Node Slot → Bool) : Bool :=
  (f.node? s).any p

/-!
## Walks
-/

/-- The nodes of a subtree, parents before children, followed by `tail`; paths longer than the
fuel are cut. -/
def preorderOnto (f : Forest) : Nat → Slot → List NodeId → List NodeId
  | 0, _, tail => tail
  | fuel + 1, s, tail =>
      match s with
      | none => tail
      | some i =>
          match f.cells[i]? with
          | none => tail
          | some cell => i :: cell.node.slots.foldr (f.preorderOnto fuel) tail

/-- All nodes reachable from a root, parents before children and children in source order. -/
def preorder (f : Forest) (root : Slot) : List NodeId :=
  f.preorderOnto f.size root []

def climb (f : Forest) (found : NodeId → Bool) : Nat → Slot → Option NodeId
  | 0, _ => none
  | _ + 1, none => none
  | fuel + 1, some i =>
      if found i then some i else f.climb found fuel (f.parent (some i))

/-- The root is reached from the node through parent links. -/
def isAttached (f : Forest) (s root : Slot) : Bool :=
  (f.climb (some · == root) (f.size + 1) s).isSome

/-- The nearest proper ancestor that satisfies a predicate. -/
def ancestor? (f : Forest) (s : Slot) (p : Node Slot → Bool) : Option NodeId :=
  f.climb (fun i => f.satisfies (some i) p) (f.size + 1) (f.parent s)

/-!
## Growth
-/

def setParent (f : Forest) (s : Slot) (parent : Slot) : Forest :=
  match s with
  | none => f
  | some i => ⟨f.cells.modify i fun cell => { cell with parent := parent }⟩

def setNode (f : Forest) (i : NodeId) (n : Node Slot) : Forest :=
  ⟨f.cells.modify i fun cell => { cell with node := n }⟩

def push (f : Forest) (cell : Cell) : Forest :=
  ⟨f.cells.push cell⟩

/-- Add a node that becomes the parent of the nodes in its slots. -/
def add (f : Forest) (n : Node Slot) (start stop : Nat) : NodeId × Forest :=
  let i := f.size
  let grown := f.push { node := n, start := start, stop := stop, parent := none }
  (i, (childrenOf n).foldl (fun g child => g.setParent (some child) (some i)) grown)

/-- Add a node that no source text stands for. -/
def addNew (f : Forest) (n : Node Slot) : NodeId × Forest :=
  f.add n 0 0

def addIdentifier (f : Forest) (text : String) : NodeId × Forest :=
  f.addNew (.name .identifier text)

/-- A string literal that prints in canonical form. -/
def addString (f : Forest) (value : String) : NodeId × Forest :=
  f.addNew (.string value none false)

/-- A numeric literal; a negative number is a negated literal. -/
def addNumber (f : Forest) (value : Float) : NodeId × Forest :=
  if value < 0 then
    let (operand, g) := f.addNew (.number (-value) none)
    g.addNew (.unary .before (.mark .minus) (some operand))
  else f.addNew (.number value none)

end Forest
end Untangle
