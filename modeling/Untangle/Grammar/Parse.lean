import Untangle.Grammar.SyntaxError
import Untangle.Limits
import Untangle.Token.Scanner
import Untangle.Tree.Forest

/-!
# Parsing computations

A parsing computation reads tokens from a scanner, adds nodes to a forest and stops at the first
error. What the enclosing construct says about `in`, `yield` and `await`, and how deeply it is
nested, is passed inwards.
-/

namespace Untangle

structure Context where
  depth : Nat
  /-- An `in` ends the expression, as in the head of a `for` loop. -/
  noIn : Bool
  inGenerator : Bool
  inAsync : Bool
  deriving Repr, DecidableEq

def Context.outermost : Context :=
  ⟨0, false, false, false⟩

structure ParseState where
  scanner : Scanner
  forest : Forest

abbrev Parse := ReaderT Context (StateT ParseState (Except SyntaxError))

namespace Parse

/-!
## The current token
-/

def scanner : Parse Scanner :=
  return (← get).scanner

def token : Parse Token :=
  return (← get).scanner.token

def kind : Parse TokenKind :=
  return (← get).scanner.token.kind

def offset : Parse Nat :=
  return (← get).scanner.token.start.offset

def tokenEnd : Parse Nat :=
  return (← get).scanner.token.next.offset

def isAt (k : TokenKind) : Parse Bool :=
  return (← kind) == k

def isAtMark (p : Punctuator) : Parse Bool :=
  isAt (.mark p)

/-!
## Errors
-/

def failAt {α : Type} (offset : Nat) (cause : SyntaxError.Cause) : Parse α :=
  throw ⟨cause, offset⟩

/-- An error at the start of the current token. -/
def fail {α : Type} (cause : SyntaxError.Cause) : Parse α := do
  failAt (← offset) cause

/-!
## Moving on
-/

/-- Install a scanner that has moved, unless it ran into an error. -/
def install (s : Scanner) : Parse Unit := do
  match s.token.kind, s.error with
  | .unknown, some error => failAt error.offset (.lexical error.cause)
  | _, _ => modify fun state => { state with scanner := s }

def advance : Parse Unit := do
  install (← scanner).scan

def eat (k : TokenKind) : Parse Bool := do
  if ← isAt k then
    advance
    return true
  else
    return false

def eatMark (p : Punctuator) : Parse Bool :=
  eat (.mark p)

/-- Consume a token of the given kind; the answer is the offset of its end. -/
def expect (k : TokenKind) : Parse Nat := do
  if ← isAt k then
    let stop ← tokenEnd
    advance
    return stop
  else
    fail (.expected (k.text?.getD "token"))

def expectMark (p : Punctuator) : Parse Nat :=
  expect (.mark p)

/-!
## Context
-/

/-- Run a computation one level deeper. -/
def deeper {α : Type} (act : Parse α) : Parse α := do
  if Limits.parseDepth ≤ (← read).depth then fail .nestedTooDeeply
  else withReader (fun ctx => { ctx with depth := ctx.depth + 1 }) act

/-- Allow `in` again, as inside brackets. -/
def allowingIn {α : Type} (act : Parse α) : Parse α :=
  withReader (fun ctx => { ctx with noIn := false }) act

def withoutIn {α : Type} (act : Parse α) : Parse α :=
  withReader (fun ctx => { ctx with noIn := true }) act

/-- Let `yield` and `await` mean what the modifiers of a function say. -/
def inFunction {α : Type} (isAsync isGenerator : Bool) (act : Parse α) : Parse α :=
  withReader (fun ctx => { ctx with inAsync := isAsync, inGenerator := isGenerator }) act

/-!
## Nodes
-/

def add (n : Node Slot) (start stop : Nat) : Parse NodeId := do
  let state ← get
  let scanner := state.scanner
  let (i, forest) := state.forest.add n start stop
  set (⟨scanner, forest⟩ : ParseState)
  return i

def node? (i : NodeId) : Parse (Option (Node Slot)) :=
  return (← get).forest.node? (some i)

def setNode (i : NodeId) (n : Node Slot) : Parse Unit :=
  modify fun state => { state with forest := state.forest.setNode i n }

def startOf (i : NodeId) : Parse Nat :=
  return (((← get).forest.cell? (some i)).map Cell.start).getD 0

def endOf (i : NodeId) : Parse Nat :=
  return (((← get).forest.cell? (some i)).map Cell.stop).getD 0

/-!
## Repetition
-/

/-- What one turn of a repetition adds to the list being read. -/
inductive Turn (α : Type)
  | stop
  | skip
  | last (item : α)
  | item (item : α)

def repeatFrom {α : Type} (turn : Parse (Turn α)) : Nat → List α → Parse (List α)
  | 0, _ => fail .nestedTooDeeply
  | fuel + 1, reversed => do
      match ← turn with
      | .stop => return reversed.reverse
      | .skip => repeatFrom turn fuel reversed
      | .last item => return (item :: reversed).reverse
      | .item item => repeatFrom turn fuel (item :: reversed)

/-- The items that the turns of a repetition add, in order. -/
def repeated {α : Type} (fuel : Nat) (turn : Parse (Turn α)) : Parse (List α) :=
  repeatFrom turn fuel []

/-- An item that ends the list unless a comma follows it. -/
def beforeComma {α : Type} (item : α) : Parse (Turn α) := do
  if ← eatMark .comma then return .item item else return .last item

end Parse

/-!
## Recursion

The productions of the grammar refer to each other through a few goals. A descent answers them
for everything that is nested one level deeper.
-/

inductive Goal
  | statement
  | assignment
  /-- Operators that bind more strongly than the bound. -/
  | binary (bound : Option Precedence)
  | unary
  | leftHandSide
  | newExpression
  | bindingTarget
  deriving Repr, DecidableEq

structure Descent where
  parse : Goal → Parse NodeId
  /-- A bound on the length of any list. -/
  fuel : Nat

end Untangle
