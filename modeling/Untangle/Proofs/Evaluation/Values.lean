import Untangle.Proofs.Evaluation.Certainty
import Untangle.Proofs.Tree.Slots

/-!
# What a value depends on

The value of an expression depends on its node and on the values of the children, as far as they are
known. A value that is known stays known, and the same, when more is known of the children.
-/

namespace Untangle

open Forest

variable {b b' : Bindings} {f : Forest} {value? value?' : Slot → Option Value} {n : Node Slot}
  {s : Slot} {v v' : Value}

/-!
## Templates
-/

theorem templateText?_map (σ : Slot → Slot) (quasis : List Quasi) (expressions : List Slot) :
    templateText? value? quasis (expressions.map σ) =
      templateText? (value? ∘ σ) quasis expressions := by
  induction quasis generalizing expressions with
  | nil => rfl
  | cons quasi quasis ih =>
      cases expressions with
      | nil =>
          have hrest := ih []
          rw [List.map_nil] at hrest
          rw [List.map_nil, templateText?, templateText?, List.tail_nil, hrest]
      | cons expression expressions =>
          rw [List.map_cons, templateText?, templateText?, List.tail_cons, List.tail_cons, ih]
          rfl

theorem templateText?_mono {quasis : List Quasi} {expressions : List Slot} {text : String}
    (hknown : ∀ t ∈ expressions, ∀ v, value? t = some v → value?' t = some v)
    (htext : templateText? value? quasis expressions = some text) :
    templateText? value?' quasis expressions = some text := by
  induction quasis generalizing expressions text with
  | nil => exact htext
  | cons quasi quasis ih =>
      cases expressions with
      | nil =>
          rcases Interpretation.templateText?_piece.mp htext with ⟨piece, rest, hpiece, hrest, rfl⟩
          exact Interpretation.templateText?_piece.mpr ⟨piece, rest, hpiece, ih nofun hrest, rfl⟩
      | cons expression expressions =>
          rcases Interpretation.templateText?_substitution.mp htext with
            ⟨piece, v, rest, hpiece, hv, hrest, rfl⟩
          refine Interpretation.templateText?_substitution.mpr
            ⟨piece, v, rest, hpiece, hknown _ List.mem_cons_self v hv, ?_, rfl⟩
          exact ih (fun t ht => hknown t (List.mem_cons_of_mem _ ht)) hrest

/-!
## Nodes
-/

namespace Bindings

theorem nodeValue?_map (σ : Slot → Slot) :
    b.nodeValue? value? s (n.map σ) = b.nodeValue? (value? ∘ σ) s n := by
  cases n with
  | guarded form condition statement => cases form <;> rfl
  | name form text => cases form <;> rfl
  | unary position operator argument => cases position <;> rfl
  | binary form left operator right => cases form <;> rfl
  | bare form => cases form <;> rfl
  | template quasis expressions =>
      have hmap : (Node.template quasis expressions).map σ =
          .template quasis (expressions.map σ) := by
        simp [Node.map, Node.mapM]
      rw [hmap, nodeValue?, nodeValue?, templateText?_map]
  | _ => rfl

/-- A name is looked at for itself, any other node for its children. -/
theorem nodeValue?_mono
    (hname : ∀ text, n = .name .identifier text → b'.fixedName? s text = b.fixedName? s text)
    (hknown : ∀ t ∈ n.slots, ∀ v, value? t = some v → value?' t = some v)
    (h : b.nodeValue? value? s n = some v) : b'.nodeValue? value?' s n = some v := by
  cases n with
  | name form text =>
      cases form with
      | identifier => exact (hname text rfl).trans h
      | privateName => cases h
  | unary position operator argument =>
      cases position with
      | before =>
          obtain ⟨u, hu, happly⟩ := Option.bind_eq_some_iff.mp h
          exact Option.bind_eq_some_iff.mpr ⟨u, hknown _ (List.mem_singleton_self _) u hu, happly⟩
      | after => cases h
  | binary form left operator right =>
      have hleft := hknown left List.mem_cons_self
      have hright := hknown right (List.mem_cons_of_mem _ (List.mem_singleton_self _))
      cases form with
      | binary =>
          simp only [nodeValue?, Option.bind_eq_bind, Option.bind_eq_some_iff] at h ⊢
          obtain ⟨u, hu, w, hw, happly⟩ := h
          exact ⟨u, hleft u hu, w, hright w hw, happly⟩
      | logical =>
          simp only [nodeValue?, Option.bind_eq_bind, Option.bind_eq_some_iff] at h ⊢
          obtain ⟨u, hu, keeps, hkeeps, hrest⟩ := h
          refine ⟨u, hleft u hu, keeps, hkeeps, ?_⟩
          cases keeps with
          | true => exact hrest
          | false => exact hright v hrest
      | assignment | default => cases h
  | template quasis expressions =>
      obtain ⟨text, htext, rfl⟩ := Option.map_eq_some_iff.mp h
      exact Option.map_eq_some_iff.mpr ⟨text, templateText?_mono hknown htext, rfl⟩
  | conditional condition whenTrue whenFalse =>
      simp only [nodeValue?, Option.bind_eq_bind, Option.bind_eq_some_iff] at h ⊢
      obtain ⟨u, hu, hrest⟩ := h
      refine ⟨u, hknown _ List.mem_cons_self u hu, ?_⟩
      cases htruthy : u.isTruthy with
      | true =>
          rw [htruthy, if_pos rfl] at hrest
          rw [if_pos rfl]
          exact hknown _ (by simp [Node.slots]) v hrest
      | false =>
          rw [htruthy, if_neg Bool.false_ne_true] at hrest
          rw [if_neg Bool.false_ne_true]
          exact hknown _ (by simp [Node.slots]) v hrest
  | bare form => cases form <;> exact h
  | _ => exact h

theorem nodeValue?_congr (hslots : ∀ t ∈ n.slots, value? t = value?' t) :
    b.nodeValue? value? s n = b.nodeValue? value?' s n :=
  Option.ext fun _ =>
    ⟨nodeValue?_mono (fun _ _ => rfl) fun t ht _ hv => (hslots t ht).symm.trans hv,
      nodeValue?_mono (fun _ _ => rfl) fun t ht _ hv => (hslots t ht).trans hv⟩

/-!
## Expressions
-/

theorem valueWithin?_succ {depth : Nat} (hv : b.valueWithin? f depth s = some v) :
    b.valueWithin? f (depth + 1) s = some v := by
  induction depth generalizing s v with
  | zero => cases hv
  | succ depth ih =>
      obtain ⟨n, hn, hvalue⟩ := Option.bind_eq_some_iff.mp hv
      refine Option.bind_eq_some_iff.mpr ⟨n, hn, ?_⟩
      exact nodeValue?_mono (fun _ _ => rfl) (fun _ _ _ ht => ih ht) hvalue

/-- A deeper look at an expression leaves its value as it was. -/
theorem valueWithin?_mono {d e : Nat} (hle : d ≤ e) (hv : b.valueWithin? f d s = some v) :
    b.valueWithin? f e s = some v := by
  induction hle with
  | refl => exact hv
  | step _ ih => exact valueWithin?_succ ih

theorem valueWithin?_unique {d e : Nat} (hv : b.valueWithin? f d s = some v)
    (hv' : b.valueWithin? f e s = some v') : v = v' :=
  Option.some.inj ((valueWithin?_mono (Nat.le_max_left d e) hv).symm.trans
    (valueWithin?_mono (Nat.le_max_right d e) hv'))

end Bindings
end Untangle
