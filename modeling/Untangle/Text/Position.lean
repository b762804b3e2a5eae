/-!
# Lines and columns

A line ends after a line feed, or after a carriage return that no line feed follows. Lines and
columns are counted from one; offsets are counted in bytes of the UTF-8 encoding and columns in
characters. The line of an offset is looked up in a table of the offsets at which lines start.
-/

namespace Untangle
namespace Text

structure Position where
  line : Nat
  column : Nat
  deriving Repr, DecidableEq

/-!
## Line starts
-/

/-- Offsets at which a line starts in a text that itself starts at `offset`, the first line
excepted. -/
def lineStartsAfter : Nat → List Char → List Nat
  | _, [] => []
  | offset, c :: rest =>
      let next := offset + c.utf8Size
      if c = '\n' ∨ (c = '\r' ∧ rest.head? ≠ some '\n') then
        next :: lineStartsAfter next rest
      else
        lineStartsAfter next rest

/-- Offsets at which the lines of a text start, in increasing order. -/
def lineStarts (source : String) : Array Nat :=
  (0 :: lineStartsAfter 0 source.toList).toArray

def lineCount (source : String) : Nat :=
  (lineStarts source).size

/-!
## Lookup
-/

/-- Where a table in increasing order has a value, or where the value would have to be
inserted. -/
inductive Place
  | found (index : Nat)
  | missing (index : Nat)
  deriving Repr, DecidableEq

/-- Binary search among the entries from `low` up to `high`. -/
def searchBetween (table : Array Nat) (value low high : Nat) (hhigh : high ≤ table.size) :
    Place :=
  if hlow : low < high then
    let middle := low + (high - low) / 2
    have hmiddle : middle < high := by omega
    if table[middle] = value then .found middle
    else if table[middle] < value then searchBetween table value (middle + 1) high hhigh
    else searchBetween table value low middle (by omega)
  else .missing low
termination_by high - low

def search (table : Array Nat) (value : Nat) : Place :=
  searchBetween table value 0 table.size (Nat.le_refl _)

/-- The index of the last line that starts at an offset or in front of it. -/
def lineIndex (starts : Array Nat) (offset : Nat) : Nat :=
  match search starts offset with
  | .found index => index
  | .missing index => index - 1

/-!
## Columns
-/

/-- The number of characters in the first `bytes` bytes, unless that cut falls inside a
character. A cut past the end counts the whole text. -/
def charsBefore? : List Char → Nat → Option Nat
  | _, 0 => some 0
  | [], _ => some 0
  | c :: rest, bytes =>
      if bytes < c.utf8Size then none
      else (charsBefore? rest (bytes - c.utf8Size)).map (· + 1)

/-- The number of characters between two offsets, zero when the later one falls inside a
character. -/
def charsBetween (source : String) (start stop : Nat) : Nat :=
  match charsBefore? source.toList start, charsBefore? source.toList stop with
  | some before, some upTo => upTo - before
  | _, _ => 0

/-!
## Positions
-/

def position (source : String) (offset : Nat) : Position :=
  let starts := lineStarts source
  let index := lineIndex starts offset
  { line := index + 1
    column := charsBetween source (starts[index]?.getD 0) offset + 1 }

end Text
end Untangle
