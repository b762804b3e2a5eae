import Untangle.Deobfuscation.Configuration
import Untangle.Printing.Program

/-!
# Runs

A run parses a source text, applies a list of passes in rounds until a round changes nothing, and
prints the result. A pass that fails is recorded, and the passes after it still work on what it
left behind.
-/

namespace Untangle

/-!
## Outcomes
-/

inductive PassStatus
  | edited
  | unchanged
  | failed (cause : RewriteError)
  deriving Repr, DecidableEq

def PassStatus.ofResult : Except RewriteError Bool → PassStatus
  | .ok true => edited
  | .ok false => unchanged
  | .error cause => failed cause

structure Outcome where
  pass : String
  status : PassStatus
  deriving Repr, DecidableEq

def Outcome.isEdit (o : Outcome) : Bool :=
  o.status == .edited

structure Report where
  output : String
  /-- Every execution of a pass, in order, over all rounds. -/
  outcomes : List Outcome
  rounds : Nat
  deriving Repr, DecidableEq

namespace Report

def edited (r : Report) : Bool :=
  r.outcomes.any Outcome.isEdit

/-- The passes that failed, with their causes. -/
def failures (r : Report) : List (String × RewriteError) :=
  r.outcomes.filterMap fun o =>
    match o.status with
    | .failed cause => some (o.pass, cause)
    | _ => none

end Report

/-!
## Rounds
-/

/-- Apply every pass once. -/
def runRound (root : Slot) : List Pass → Forest → List Outcome × Forest
  | [], f => ([], f)
  | pass :: rest, f =>
      let (result, f) := (pass.run root).apply f
      let (outcomes, f) := runRound root rest f
      (⟨pass.name, .ofResult result⟩ :: outcomes, f)

/-- The outcomes of all rounds, and how many there were. -/
def runRounds (passes : List Pass) (root : Slot) :
    (limit : Nat) → Forest → List Outcome × Nat × Forest
  | 0, f => ([], 0, f)
  | limit + 1, f =>
      let (outcomes, f) := runRound root passes f
      if outcomes.any Outcome.isEdit then
        let (others, count, f) := runRounds passes root limit f
        (outcomes ++ others, count + 1, f)
      else (outcomes, 1, f)

/-- A run has at least one round. -/
def clampRounds (rounds : Nat) : Nat :=
  min (max rounds 1) Limits.rounds

def Program.run (p : Program) (passes : List Pass) (rounds : Nat) (style : Style) : Report :=
  let (outcomes, count, f) := runRounds passes (some p.root) (clampRounds rounds) p.forest
  ⟨f.print style (some p.root), outcomes, count⟩

/-- Parse, rewrite and print. -/
def deobfuscate (source : String) (passes : List Pass) (rounds : Nat) (style : Style) :
    Except SyntaxError Report :=
  (Program.parse source).map fun p => p.run passes rounds style

end Untangle
