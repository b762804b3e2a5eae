import Untangle.Tree.Forest

/-!
# Edits

Every edit keeps parent links and child slots in step, provided that the nodes put in are not
attached elsewhere. An edit that does not apply answers `false`.
-/

namespace Untangle
namespace Forest

/-!
## Single slots
-/

/-- Put `new` into the slot that holds `old`, whose parent link is cleared. -/
def replace (f : Forest) (old new : Slot) : Forest × Bool :=
  match f.parent old, f.cell? new with
  | some p, some newCell =>
      if newCell.parent.isSome then (f, false)
      else
        match f.node? (some p) with
        | none => (f, false)
        | some owner =>
            let (changed, found) := owner.replaceFirst old new
            if found then
              (((f.setNode p changed).setParent old none).setParent new (some p), true)
            else (f, false)
  | _, _ => (f, false)

/-- The owner's node without `old`: a list entry is dropped and any other slot is emptied. -/
def withoutChild (owner : Node Slot) (old : Slot) : Node Slot × Bool :=
  match owner.entries? with
  | some entries =>
      if entries.contains old then (owner.withEntries (entries.erase old), true)
      else owner.replaceFirst old none
  | none => owner.replaceFirst old none

/-- Take a node out of its parent. -/
def detach (f : Forest) (s : Slot) : Forest × Bool :=
  match f.parent s with
  | none => (f, false)
  | some p =>
      match f.node? (some p) with
      | none => (f, false)
      | some owner =>
          let (changed, found) := withoutChild owner s
          if found then ((f.setNode p changed).setParent s none, true) else (f, false)

/-!
## Statements
-/

/-- A list with its first entry `old` exchanged for `new`. -/
def spliceEntry (old : Slot) (new : List Slot) : List Slot → Option (List Slot)
  | [] => none
  | entry :: rest =>
      if entry = old then some (new ++ rest)
      else (spliceEntry old new rest).map (entry :: ·)

/-- The statements of `owner` with `old` exchanged for `new`, when `old` is in a statement
list. -/
def spliceStatements? (owner : Node Slot) (old : Slot) (new : List Slot) :
    Option (Node Slot) :=
  if owner.holdsStatements then
    (owner.entries?.bind (spliceEntry old new)).map owner.withEntries
  else none

/-- Replace a statement by any number of statements. Where a single statement must stand, none
becomes an empty statement and several become a block. -/
def splice (f : Forest) (old : Slot) (new : List Slot) : Forest × Bool :=
  match f.parent old with
  | none => (f, false)
  | some p =>
      match (f.node? (some p)).bind fun owner => spliceStatements? owner old new with
      | some changed =>
          let adopted := new.foldl (fun g s => g.setParent s (some p)) (f.setNode p changed)
          (adopted.setParent old none, true)
      | none =>
          match new with
          | [] =>
              let (statement, g) := f.addNew (.bare .emptyStatement)
              g.replace old (some statement)
          | [statement] => f.replace old statement
          | _ =>
              let (block, g) := f.addNew (.body .block new)
              g.replace old (some block)

/-- Remove a statement. Where a statement must stand it becomes an empty one. -/
def remove (f : Forest) (s : Slot) : Forest × Bool :=
  f.splice s []

/-!
## Copies
-/

/-- Copy a subtree, children first; paths longer than the fuel are cut. -/
def copyWith : Nat → Slot → StateM Forest Slot
  | 0, _ => pure none
  | fuel + 1, s => do
      match (← get).cell? s with
      | none => pure none
      | some cell =>
          let node ← cell.node.mapM fun slot =>
            if slot.isSome then copyWith fuel slot else pure none
          modifyGet fun f =>
            let (i, g) := f.add node cell.start cell.stop
            (some i, g)

/-- An unattached copy of a subtree with the same source spans. -/
def copy (f : Forest) (s : Slot) : Slot × Forest :=
  (copyWith f.size s).run f

end Forest
end Untangle
