import Untangle.Proofs.Tree.Copy
import Untangle.Proofs.Tree.Edits

/-!
# Sequences of edits

A run of edits keeps a forest well formed at every step, whatever nodes the edits name, as long
as the nodes put in are free and do not contain the place they go to. An edit that answers
`false` leaves the forest as it was.
-/

namespace Untangle
namespace Forest

/-!
## Edits
-/

inductive Edit where
  | add (node : Node Slot) (start stop : Nat)
  | replace (old new : Slot)
  | detach (old : Slot)
  | remove (old : Slot)
  | splice (old : Slot) (new : List Slot)
  | copy (old : Slot)

namespace Edit

/-- The forest that an edit leaves, and its answer if it has one. -/
def run (f : Forest) : Edit → Forest × Option Bool
  | add node start stop => ((f.add node start stop).2, none)
  | replace old new => ((f.replace old new).1, some (f.replace old new).2)
  | detach old => ((f.detach old).1, some (f.detach old).2)
  | remove old => ((f.remove old).1, some (f.remove old).2)
  | splice old new => ((f.splice old new).1, some (f.splice old new).2)
  | copy old => ((f.copy old).2, none)

/-- What an edit needs of the nodes it puts in. -/
def Allowed (f : Forest) : Edit → Prop
  | add node _ _ => f.Adoptable node
  | replace old new => ∀ o i, old = some o → new = some i → ¬ f.Within o i
  | splice old new => f.Replacements old new
  | detach _ | remove _ | copy _ => True

end Edit

theorem replacements_nil (f : Forest) (s : Slot) : f.Replacements s [] :=
  ⟨List.nodup_nil, by simp, by simp⟩

theorem wellFormed_run {f : Forest} {edit : Edit} (hf : f.WellFormed) (h : edit.Allowed f) :
    (edit.run f).1.WellFormed := by
  cases edit with
  | add node start stop => exact wellFormed_add hf h
  | replace old new => exact wellFormed_replace hf h
  | detach old => exact wellFormed_detach hf old
  | remove old => exact wellFormed_splice hf (replacements_nil f old)
  | splice old new => exact wellFormed_splice hf h
  | copy old => exact wellFormed_copy hf old

theorem run_unchanged {f : Forest} {edit : Edit} (hf : f.WellFormed) (h : edit.Allowed f)
    (hno : (edit.run f).2 = some false) : (edit.run f).1 = f := by
  cases edit with
  | add node start stop => cases hno
  | replace old new => exact replace_unchanged old new (Option.some.inj hno)
  | detach old => exact detach_unchanged old (Option.some.inj hno)
  | remove old => exact splice_unchanged hf (replacements_nil f old) (Option.some.inj hno)
  | splice old new => exact splice_unchanged hf h (Option.some.inj hno)
  | copy old => cases hno

/-!
## Runs
-/

/-- One edit of a run: the forest it meets, the forest it leaves, and its answer. -/
structure Stage where
  before : Forest
  after : Forest
  answer : Option Bool

def stages (f : Forest) : List Edit → List Stage
  | [] => []
  | edit :: edits =>
      ⟨f, (edit.run f).1, (edit.run f).2⟩ :: (edit.run f).1.stages edits

/-- Every edit is allowed in the forest that the edits before it leave. -/
def AllAllowed (f : Forest) : List Edit → Prop
  | [] => True
  | edit :: edits => edit.Allowed f ∧ (edit.run f).1.AllAllowed edits

theorem stages_wellFormed {f : Forest} {edits : List Edit} (hf : f.WellFormed)
    (h : f.AllAllowed edits) :
    ∀ stage ∈ f.stages edits, stage.after.WellFormed ∧
      (stage.answer = some false → stage.after = stage.before) := by
  induction edits generalizing f with
  | nil => simp [stages]
  | cons edit edits ih =>
      rcases h with ⟨hedit, hedits⟩
      have hafter := wellFormed_run hf hedit
      intro stage hmem
      rcases List.mem_cons.mp hmem with rfl | hmem
      · exact ⟨hafter, run_unchanged hf hedit⟩
      · exact ih hafter hedits stage hmem

/-- A block is built around one identifier, which then makes way for another. -/
theorem stages_wellFormed_block :
    let edits : List Edit :=
      [.add (.name .identifier "a") 0 1, .add (.name .identifier "b") 2 3,
        .add (.body .block [some 0]) 0 3, .splice (some 0) [some 1], .copy (some 2),
        .replace (some 9) none]
    empty.WellFormed ∧ empty.AllAllowed edits ∧
      ∀ stage ∈ empty.stages edits, stage.after.WellFormed ∧
        (stage.answer = some false → stage.after = stage.before) := by
  intro edits
  have hallowed : empty.AllAllowed edits := by
    refine ⟨?_, ?_, ?_, ?_, trivial, ?_, trivial⟩
    · exact ⟨by simp [childrenOf, Node.slots], by simp [childrenOf, Node.slots],
        by simp [FullEntries, Node.entries?]⟩
    · exact ⟨by simp [childrenOf, Node.slots], by simp [childrenOf, Node.slots],
        by simp [FullEntries, Node.entries?]⟩
    · refine ⟨?_, by decide, by simp [FullEntries, Node.entries?]⟩
      intro c hc
      obtain rfl : c = 0 := by simpa [childrenOf, Node.slots] using hc
      exact ⟨by decide, rfl⟩
    · refine ⟨by decide, by simpa using ⟨by decide, rfl⟩, ?_⟩
      intro o i ho hi hwithin
      obtain rfl := Option.some.inj ho
      obtain rfl : i = 1 := by simpa using hi
      -- The only ancestor of the identifier is the block, which is a root.
      rcases hwithin.cases_head with heq | ⟨p, hp, hwithin⟩
      · cases heq
      · obtain rfl : 2 = p := Option.some.inj hp
        rcases hwithin.cases_head with heq | ⟨q, hq, _⟩
        · cases heq
        · cases hq
    · intro o i _ hi
      cases hi
  exact ⟨wellFormed_empty, hallowed, stages_wellFormed wellFormed_empty hallowed⟩

end Forest
end Untangle
