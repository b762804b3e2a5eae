import Untangle.Proofs.Evaluation.Values
import Untangle.Proofs.Grammar.Programs
import Untangle.Proofs.Rewrite.ElementProxies
import Untangle.Proofs.Tree.Subtree

/-!
# Computed indices

The index of an element proxy is computed by an arithmetic of its own, from numbers that are passed
for the parameters. It agrees with evaluation: where number literals stand in the place of the
parameters, evaluation knows the same number.
-/

namespace Untangle

open Forest

/-!
## Numbers in the place of parameters
-/

/-- The tree at `t` in `g` is the tree at `s` in `f`, but number literals stand in the place of the
names that have a number. -/
inductive Filled (numberOf : String → Option Float) (f g : Forest) : Slot → Slot → Prop
  | parameter {s t : Slot} {text x raw} (found : f.node? s = some (.name .identifier text))
      (value : numberOf text = some x) (put : g.node? t = some (.number x raw)) :
      Filled numberOf f g s t
  | kept {s t : Slot} {n : Node Slot} {σ : Slot → Slot} (found : f.node? s = some n)
      (free : ∀ text, n = .name .identifier text → numberOf text = none)
      (put : g.node? t = some (n.map σ)) (below : ∀ a ∈ n.slots, Filled numberOf f g a (σ a)) :
      Filled numberOf f g s t
  | missing {s t : Slot} (found : f.node? s = none) (put : g.node? t = none) :
      Filled numberOf f g s t

variable {numberOf : String → Option Float} {f g : Forest} {s t : Slot} {n : Node Slot}

def Node.fill (numberOf : String → Option Float) : Node Slot → Node Slot
  | .name .identifier text => ((numberOf text).map (.number · none)).getD (.name .identifier text)
  | n => n

/-- Number literals are put in the place of all names that have a number. -/
def Forest.fill (numberOf : String → Option Float) (f : Forest) : Forest :=
  ⟨f.cells.map fun cell => { cell with node := cell.node.fill numberOf }⟩

theorem Node.fill_of_free (free : ∀ text, n = .name .identifier text → numberOf text = none) :
    n.fill numberOf = n := by
  cases n with
  | name form text =>
      cases form with
      | identifier => rw [fill, free text rfl]; rfl
      | privateName => rfl
  | _ => rfl

theorem Forest.node?_fill (s : Slot) :
    (f.fill numberOf).node? s = (f.node? s).map (Node.fill numberOf) := by
  cases s with
  | none => rfl
  | some i => simp [node?, cell?, fill, Function.comp_def]

/-- Every tree can be filled in. -/
theorem Forest.WellFormed.filled_fill (hf : f.WellFormed) (numberOf : String → Option Float)
    (s : Slot) : Filled numberOf f (f.fill numberOf) s s := by
  cases s with
  | none => exact .missing rfl rfl
  | some i =>
      induction hw : f.weight i using Nat.strong_induction_on generalizing i with
      | _ w ih =>
          have hfill : (f.fill numberOf).node? (some i) = _ := node?_fill (some i)
          cases hn : f.node? (some i) with
          | none => exact .missing hn (by rw [hfill, hn]; rfl)
          | some n =>
              rw [hn, Option.map_some] at hfill
              by_cases hfree : ∀ text, n = .name .identifier text → numberOf text = none
              · refine .kept (σ := id) hn hfree ?_ fun a ha => ?_
                · rw [hfill, Node.fill_of_free hfree, Node.map_id]
                · cases a with
                  | none => exact .missing rfl rfl
                  | some k => exact ih _ (hw ▸ hf.weight_lt (hf.link_of_slot hn ha)) k rfl
              · simp only [not_forall] at hfree
                obtain ⟨text, rfl, hsome⟩ := hfree
                obtain ⟨x, hx⟩ := Option.ne_none_iff_exists'.mp hsome
                have hput : (f.fill numberOf).node? (some i) = some (.number x none) := by
                  rw [hfill, Node.fill, hx]
                  rfl
                exact .parameter hn hx hput

/-!
## Evaluation
-/

/-- Evaluation of the tree with numbers goes as deep as the arithmetic. -/
theorem Filled.valueWithin?_of_evaluateIndex {depth : Nat} {x : Float}
    (h : Filled numberOf f g s t) (b : Bindings)
    (hindex : ElementProxy.evaluateIndex f numberOf depth s = some x) :
    b.valueWithin? g depth t = some (.number x) := by
  induction depth generalizing s t x with
  | zero => cases hindex
  | succ depth ih =>
      rw [Bindings.valueWithin?]
      unfold ElementProxy.evaluateIndex at hindex
      cases h with
      | parameter found value put =>
          rw [found] at hindex
          obtain rfl := Option.some.inj (value.symm.trans hindex)
          rw [put]
          rfl
      | missing found put =>
          rw [found] at hindex
          cases hindex
      | kept found free put below =>
          rw [put, Option.bind_some, Bindings.nodeValue?_map]
          rw [found] at hindex
          split at hindex
          case h_1 value raw hn =>
            cases hn
            cases hindex
            rfl
          case h_2 text hn =>
            cases hn
            cases (free text rfl).symm.trans hindex
          case h_3 left operator right hn =>
            cases hn
            simp only [Option.bind_eq_bind, Option.bind_eq_some_iff] at hindex
            obtain ⟨y, hleft, z, hright, happlied⟩ := hindex
            have hleft' := ih (below left List.mem_cons_self) hleft
            have hmem := List.mem_cons_of_mem left (List.mem_singleton_self right)
            have hright' := ih (below right hmem) hright
            exact Option.bind_eq_some_iff.mpr ⟨_, hleft', Option.bind_eq_some_iff.mpr
              ⟨_, hright', ElementProxy.applyBinary_of_applyArithmetic happlied⟩⟩
          case h_4 => cases hindex

/-- If the arithmetic of an index gives a number, evaluation knows the expression in which number
literals stand for the parameters, under all bindings, to be worth just this number. -/
theorem evaluate_of_evaluateIndex {x : Float} (hfilled : Filled numberOf f g s t)
    (hindex : ElementProxy.evaluateIndex f numberOf (Limits.evaluationDepth + 1) s = some x)
    (b : Bindings) : b.evaluate g t = some (.number x) :=
  hfilled.valueWithin?_of_evaluateIndex b hindex

/-- The index `i + 4 * n` when 5 and 3 are passed. -/
theorem evaluate_of_evaluateIndex_sum : ∃ p s numberOf,
    Program.parse "i + 4 * n" = .ok p ∧
      numberOf = ElementProxy.argument? ["i", "n"] [5, 3] ∧
        Filled numberOf p.forest (p.forest.fill numberOf) s s ∧
          ElementProxy.evaluateIndex p.forest numberOf (Limits.evaluationDepth + 1) s = some 17 ∧
            ∀ b : Bindings, b.evaluate (p.forest.fill numberOf) s = some (.number 17) := by
  have hfacts : ∃ p ∈ (Program.parse "i + 4 * n").toOption, ∃ i ∈ List.range p.forest.size,
      ElementProxy.evaluateIndex p.forest (ElementProxy.argument? ["i", "n"] [5, 3])
        (Limits.evaluationDepth + 1) (some i) = some 17 := by
    decide +kernel
  rcases hfacts with ⟨p, hp, i, -, hindex⟩
  have hparse := Program.parse_of_mem_toOption hp
  have hfilled := (Program.grown_parse hparse).wellFormed.filled_fill
    (ElementProxy.argument? ["i", "n"] [5, 3]) (some i)
  exact ⟨p, some i, _, hparse, rfl, hfilled, hindex, evaluate_of_evaluateIndex hfilled hindex⟩

end Untangle
