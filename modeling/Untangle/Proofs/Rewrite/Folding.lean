import Untangle.Proofs.Number.Negation
import Untangle.Proofs.Rewrite.Running
import Untangle.Proofs.Rewrite.Substitution
import Untangle.Rewrite.Constants

/-!
# Folding

Operations are folded outermost first, so that an operation is as it was in the source when it is
looked at, and each constant has the value that was known of the operation in the source. A run
with enough fuel looks at every operation that is left.
-/

namespace Untangle

open Forest Bindings Rewrite
open Relation (ReflTransGen)

/-!
## Literals of values
-/

section Literals

variable {f g g' h : Forest} {root i j p : NodeId} {c : NodeId → NodeId} {n : Node Slot}
  {v : Value}

theorem Node.nodeValue?_of_isLiteral {b : Bindings} {value? value?' : Slot → Option Value}
    {s s' : Slot} (h : n.isLiteral = true) :
    b.nodeValue? value? s n = b.nodeValue? value?' s' n := by
  rcases isLiteral_cases h with ⟨_, _, _, rfl⟩ | ⟨_, _, rfl⟩ | ⟨_, rfl⟩ | rfl <;> rfl

/-- A constant has its value wherever its nodes are found. -/
theorem Forest.Yields.mono (hj : g.Constant j) (hyields : g.Yields j v)
    (hnode : ∀ {k n}, g.node? (some k) = some n →
      (∀ a ∈ childrenOf n, ∃ m, g.node? (some a) = some m ∧ m.isLiteral = true) →
      h.node? (some k) = some n) : h.Yields j v := by
  have hleaf : ∀ {k n}, g.node? (some k) = some n → n.isLiteral = true → ∀ b : Bindings,
      h.node? (some k) = some n ∧ b.valueWithin? h 1 (some k) = b.valueWithin? g 1 (some k) := by
    intro k n hn hliteral b
    have hn' : h.node? (some k) = some n := by
      refine hnode hn ?_
      rw [Node.childrenOf_of_isLiteral hliteral]
      nofun
    exact ⟨hn', by rw [valueWithin?, valueWithin?, hn, hn']; rfl⟩
  intro b
  rw [← hyields b, valueWithin?, valueWithin?]
  cases hj with
  | literal hn hliteral =>
      rw [(hleaf hn hliteral b).1, hn, Option.bind_some, Option.bind_some]
      exact Node.nodeValue?_of_isLiteral hliteral
  | signed hj hn hliteral =>
      have hj' := hnode hj fun a ha => by
        obtain rfl := List.mem_singleton.mp ha
        exact ⟨_, hn, hliteral⟩
      rw [hj', hj, Option.bind_some, Option.bind_some, nodeValue?, nodeValue?,
        (hleaf hn hliteral b).2]

/-- No number below is written in a radix other than ten. -/
def Forest.DecimalAt (f : Forest) (i : NodeId) : Prop :=
  ∀ x raw, f.node? (some i) = some (.number x (some raw)) → isRadixNumeral raw = false

/-- The literal of a value has been added. -/
structure AddsLiteral (g g' : Forest) (j : NodeId) (v : Value) : Prop
    extends g.AddsConstant g' j where
  yields : g'.Yields j v
  decimal : ∀ {k}, g.size ≤ k → g'.DecimalAt k

theorem Forest.WellFormed.addsLiteral (hg : g.WellFormed) (hliteral : n.isLiteral = true)
    (hvalue : ∀ b : Bindings, b.nodeValue? (b.valueWithin? (g.addNew n).2 1) (some g.size) n = some v)
    (hdecimal : ∀ x raw, n ≠ .number x (some raw)) : AddsLiteral g (g.addNew n).2 g.size v := by
  refine ⟨hg.addsConstant_literal hliteral, fun b => ?_, fun {k} hk x raw hnumber => ?_⟩
  · rw [valueWithin?, addNew, node?_add_self]
    exact hvalue b
  · have hsize : (g.addNew n).2.size = g.size + 1 := size_add ..
    have hlt : k < g.size + 1 := hsize ▸ lt_size_of_node? hnumber
    obtain rfl := Nat.le_antisymm (Nat.le_of_lt_succ hlt) hk
    rw [addNew, node?_add_self] at hnumber
    exact absurd (Option.some.inj hnumber) (hdecimal x raw)

theorem AddsLiteral.negated {x : Float} (hadds : AddsLiteral g g' j (.number x))
    (hn : g'.node? (some j) = some n) (hliteral : n.isLiteral = true) :
    AddsLiteral g (g'.addNew (.unary .before (.mark .minus) (some j))).2 g'.size
      (.number (-x)) := by
  refine ⟨hadds.signed hn hliteral _, fun b => ?_, fun {k} hk y raw hnumber => ?_⟩
  · have hj : (g'.addNew (.unary .before (.mark .minus) (some j))).2.node? (some j) = some n :=
      (node?_add_of_ne (Nat.ne_of_lt (lt_size_of_node? hn))).trans hn
    have hx := hadds.yields b
    rw [valueWithin?, hn, Option.bind_some, Node.nodeValue?_of_isLiteral hliteral] at hx
    have hoperand : b.valueWithin? (g'.addNew (.unary .before (.mark .minus) (some j))).2 1
        (some j) = some (.number x) := by
      rw [valueWithin?, hj]
      exact hx
    rw [valueWithin?, addNew, node?_add_self, Option.bind_some, nodeValue?]
    exact Option.bind_eq_some_iff.mpr ⟨_, hoperand, rfl⟩
  · by_cases hlast : k = g'.size
    · subst hlast
      rw [addNew, node?_add_self] at hnumber
      cases hnumber
    · rw [addNew, node?_add_of_ne hlast] at hnumber
      exact hadds.decimal hk y raw hnumber

theorem Forest.WellFormed.addsLiteral_number (hg : g.WellFormed) (x : Float) :
    AddsLiteral g (g.addNumber x).2 (g.addNumber x).1 (.number x) := by
  unfold addNumber
  split
  · -- Negating the operand gives back the number.
    have hoperand : AddsLiteral g (g.addNew (.number (-x) none)).2 g.size (.number (-x)) :=
      hg.addsLiteral (n := .number (-x) none) rfl (fun _ => rfl) (by simp)
    have hsigned := hoperand.negated node?_add_self rfl
    rwa [Number.neg_neg_float] at hsigned
  · exact hg.addsLiteral (n := .number x none) rfl (fun _ => rfl) (by simp)

/-- A value gets a literal exactly when it has one. -/
theorem Edit.run_addLiteral? (hg : g.WellFormed) (v : Value) :
    v.hasLiteral = false ∧ (Edit.addLiteral? v).run g = (none, g) ∨
      v.hasLiteral = true ∧ ∃ j g', (Edit.addLiteral? v).run g = (some j, g') ∧
        AddsLiteral g g' j v := by
  unfold Edit.addLiteral?
  cases hliteral : v.hasLiteral with
  | false => exact .inl ⟨rfl, rfl⟩
  | true =>
      refine .inr ⟨rfl, ?_⟩
      rw [if_pos rfl]
      cases v with
      | undefined => cases hliteral
      | null =>
          exact ⟨_, _, rfl, hg.addsLiteral (n := .bare .null) rfl (fun _ => rfl) nofun⟩
      | boolean value =>
          exact ⟨_, _, rfl, hg.addsLiteral (n := .boolean value) rfl (fun _ => rfl) nofun⟩
      | string text =>
          exact ⟨_, _, rfl, hg.addsLiteral (n := .string text none false) rfl (fun _ => rfl) nofun⟩
      | number x => exact ⟨_, _, rfl, hg.addsLiteral_number x⟩

end Literals

/-!
## Folded trees
-/

/-- The value of an operation as it stands in the source, if there is a literal for it. -/
def Forest.literalValue? (f : Forest) (root i : NodeId) : Option Value :=
  (operationValue? (ofForest f (some root)) f (some i)).filter Value.hasLiteral

/-- The tree of `g` is that of `f` with literals in the place of operations and with numbers in
decimal. -/
structure Folded (f g : Forest) (root : NodeId) (c : NodeId → NodeId) : Prop
    extends Substituted f g root c where
  value : ∀ {i}, c i ≠ i → ∃ v, f.literalValue? root i = some v ∧ g.Yields (c i) v
  decimal : ∀ {i}, g.Within i root → g.DecimalAt i

section Folded

variable {f g g' h : Forest} {root i j p : NodeId} {c : NodeId → NodeId} {n : Node Slot}
  {v : Value}

theorem Forest.literalValue?_eq_some_iff :
    f.literalValue? root i = some v ↔ f.satisfies (some i) isOperation = true ∧
      (ofForest f (some root)).evaluate f (some i) = some v ∧ v.hasLiteral = true := by
  rw [literalValue?, Option.filter_eq_some_iff, operationValue?]
  split <;> simp_all

/-- Operations are computed from their operands. -/
theorem Forest.exists_computed (h : f.satisfies (some i) isOperation = true) :
    ∃ n, f.node? (some i) = some n ∧ n.isComputed = true := by
  rcases (Option.any_eq_true_iff_get _ _).mp h with ⟨hsome, hoperation⟩
  refine ⟨_, (Option.some_get hsome).symm, ?_⟩
  unfold isOperation at hoperation
  split at hoperation
  · rename_i heq
    rw [heq]
    rfl
  · rename_i heq
    rw [heq]
    rfl
  · cases hoperation

/-- An operation with a value has operands. -/
theorem Node.childrenOf_ne_nil {b : Bindings} {s : Slot} {d : Nat} (hcomputed : n.isComputed = true)
    (hvalue : b.nodeValue? (b.valueWithin? f d) s n = some v) : childrenOf n ≠ [] := by
  have hnone : b.valueWithin? f d none = none := by cases d <;> rfl
  rcases isComputed_cases hcomputed with
    ⟨_, _, _, _, rfl⟩ | ⟨_, left, _, _, rfl | rfl, rfl⟩
  · cases hvalue
  all_goals
    cases left with
    | none =>
        simp only [nodeValue?, hnone] at hvalue
        cases hvalue
    | some k => simp [childrenOf, Node.slots]

namespace Folded

theorem valued (hc : Folded f g root c) : Valued f g root c := by
  refine ⟨hc.toSubstituted, fun hi => ?_⟩
  rcases hc.value hi with ⟨v, hv, hyields⟩
  exact ⟨v, (literalValue?_eq_some_iff.mp hv).2.1, hyields⟩

theorem eq_of_literalValue? (hc : Folded f g root c) (hnone : f.literalValue? root i = none) :
    c i = i := by
  by_contra hmoved
  rcases hc.value hmoved with ⟨v, hv, _⟩
  cases hnone.symm.trans hv

/-- One more operation is folded. -/
theorem graft (hc : Folded f g root c) (hadds : AddsLiteral g g' j v) (hx : Graft g g' h i p j)
    (hi : g.Within i root) (hs : Substituted f h root (Function.update c i j))
    (hn : f.node? (some i) = some n) (hcomputed : n.isComputed = true)
    (hv : f.literalValue? root i = some v) : Folded f h root (Function.update c i j) := by
  have hg := hc.after.wellFormed
  have hkept := fun {a m} => hc.node?_graft hx hn hcomputed (a := a) (m := m)
  refine ⟨hs, fun {k} hk => ?_, fun {k} hk x raw hnumber => ?_⟩
  · by_cases hki : k = i
    · subst hki
      rw [Function.update_self]
      exact ⟨v, hv, hadds.yields.mono hadds.constant hkept⟩
    · rw [Function.update_of_ne hki] at hk ⊢
      rcases hc.value hk with ⟨w, hw, hyields⟩
      have hgrown : ∀ {a m}, g.node? (some a) = some m → g'.node? (some a) = some m :=
        fun hm => (hadds.grown.node? (lt_size_of_node? hm)).trans hm
      have hconst := (hc.constant hk).mono (h := g') fun hm _ => hgrown hm
      exact ⟨w, hw, (hyields.mono (hc.constant hk) fun hm _ => hgrown hm).mono hconst hkept⟩
  · by_cases hlt : k < g.size
    · -- A number has no slots, so it is as it was.
      have hk' := hx.within_of_old hg hk hlt
      have hnode := hx.node?_map hg (node?_of_lt hlt)
      rw [hnumber] at hnode
      have hsame := Node.number_of_map (Option.some.inj hnode).symm
      exact hc.decimal hk' x raw ((node?_of_lt hlt).trans (congrArg some hsame))
    · refine hadds.decimal (Nat.not_lt.mp hlt) x raw ?_
      rw [← hnumber]
      refine (hx.node ?_).symm
      rintro rfl
      exact hlt (hg.lt_size_of_link hx.linked)

theorem satisfies_isOperation (hc : Folded f g root c) (hlt : i < f.size) :
    g.satisfies (some i) isOperation = f.satisfies (some i) isOperation := by
  rcases hc.node (node?_of_lt hlt) with ⟨n', hn', hrespells⟩
  rw [satisfies, satisfies, hn', node?_of_lt hlt, Option.any_some, Option.any_some]
  rcases hrespells with rfl | ⟨x, raw, raw', hnumber, rfl⟩
  · cases f.cells[i].node with
    | guarded form condition statement => cases form <;> rfl
    | binary form left operator right => cases form <;> rfl
    | _ => rfl
  · rw [Node.number_of_map hnumber]
    rfl

/-- An operation that is left was there before. -/
theorem lt_size_of_isOperation (hc : Folded f g root c) (hi : g.Within i root)
    (hoperation : g.satisfies (some i) isOperation = true) : i < f.size := by
  by_contra hnew
  rcases hc.within_constant hi (Nat.not_lt.mp hnew) with ⟨j, hj, hij⟩
  rcases exists_computed hoperation with ⟨n, hn, hcomputed⟩
  cases hcomputed.symm.trans ((hc.constant hj).isComputed_eq_false hc.after.wellFormed hij hn)

/-- Nothing at or around the node was replaced, and nothing inside of it. -/
structure Untouched (f : Forest) (root : NodeId) (c : NodeId → NodeId) (i : NodeId) : Prop where
  within : f.Within i root
  above : ∀ k, f.Within i k → c k = k
  below : ∀ k, f.Within k i → c k = k

variable (hc : Folded f g root c) (hi : Untouched f root c i)

include hc hi

theorem lt_size_of_untouched : i < f.size :=
  lt_size_of_within hi.within hc.root_lt

theorem operationValue?_eq :
    operationValue? (ofForest f (some root)) g (some i) =
      operationValue? (ofForest f (some root)) f (some i) := by
  have hlt := hc.lt_size_of_untouched hi
  rw [operationValue?, operationValue?, hc.satisfies_isOperation hlt, evaluate, evaluate,
    hc.valueWithin?_of_unmoved _ _ hlt hi.below]

/-- An operation is folded exactly if it had a value with a literal. -/
theorem run_foldOperation :
    f.literalValue? root i = none ∧
        (foldOperation (ofForest f (some root)) i).run g = (false, g) ∨
      (f.literalValue? root i).isSome = true ∧ ∃ j h,
        (foldOperation (ofForest f (some root)) i).run g = (true, h) ∧ j ≠ i ∧
          Folded f h root (Function.update c i j) := by
  have hg := hc.after.wellFormed
  rw [foldOperation, Edit.run_look_bind, hc.operationValue?_eq hi]
  cases hv : operationValue? (ofForest f (some root)) f (some i) with
  | none => exact .inl ⟨by rw [literalValue?, hv]; rfl, rfl⟩
  | some v =>
      dsimp only
      rcases Edit.run_addLiteral? hg v with ⟨hnone, hrun⟩ | ⟨hliteral, j, g', hrun, hadds⟩
      · refine .inl ⟨by rw [literalValue?, hv, Option.filter_some, hnone]; rfl, ?_⟩
        rw [Edit.run_bind, hrun]
        rfl
      · have hvalue : f.literalValue? root i = some v := by
          rw [literalValue?, hv, Option.filter_some, if_pos hliteral]
        obtain ⟨hoperation, hevaluate, _⟩ := literalValue?_eq_some_iff.mp hvalue
        rcases exists_computed hoperation with ⟨n, hn, hcomputed⟩
        have hwithin := (hc.within_iff_unmoved (lt_size_of_node? hn)).mpr ⟨hi.within, hi.above⟩
        rw [evaluate, valueWithin?, hn, Option.bind_some] at hevaluate
        rcases hc.exists_replace hadds.toAddsConstant hwithin hn hcomputed
          (Node.childrenOf_ne_nil hcomputed hevaluate) with ⟨p, h, hreplace, hx, hs⟩
        refine .inr ⟨by rw [hvalue]; rfl, j, h, ?_, ?_,
          hc.graft hadds hx hwithin hs hn hcomputed hvalue⟩
        · rw [Edit.run_bind, hrun]
          exact congrArg Prod.swap hreplace
        · rintro rfl
          exact Nat.lt_irrefl _ ((lt_size_of_within hwithin
            (hc.root_lt.trans_le hc.size_le)).trans_le (hadds.new j .refl))

end Folded

/-!
## Runs
-/

/-- What folding leaves behind that was done in one part of the tree. -/
structure Folds (f : Forest) (root : NodeId) (c c' : NodeId → NodeId) (part : NodeId → Prop)
    (outcome : Bool × Forest) : Prop where
  folded : Folded f outcome.2 root c'
  outside : ∀ {k}, ¬ part k → c' k = c k
  changed : outcome.1 = true → ∃ k, part k ∧ (f.literalValue? root k).isSome = true

/-- Every operation of a part that is left has no value with a literal. -/
def Exhausted (f : Forest) (root : NodeId) (c : NodeId → NodeId) (part : NodeId → Prop) : Prop :=
  ∀ ⦃k⦄, part k → (∀ a, f.Within k a → c a = a) → f.literalValue? root k = none

/-- Siblings are folded one after the other, and none is in the way of another one. -/
theorem run_changeAll_siblings {act : NodeId → Edit Bool} {siblings : List NodeId} {deep : Prop}
    (hact : ∀ a ∈ siblings, ∀ {g c}, Folded f g root c → Folded.Untouched f root c a →
      ∃ c', Folds f root c c' (f.Within · a) ((act a).run g) ∧
        (deep → Exhausted f root c' (f.Within · a)))
    (hsiblings : ∀ a ∈ siblings, f.Link a i) (hnodup : siblings.Nodup) (hi : f.Within i root)
    (hc : Folded f g root c) (habove : ∀ k, f.Within i k → c k = k)
    (hbelow : ∀ a ∈ siblings, ∀ k, f.Within k a → c k = k) :
    ∃ c', Folds f root c c' (fun k => ∃ a ∈ siblings, f.Within k a)
        ((Edit.changeAll act siblings).run g) ∧
      (deep → Exhausted f root c' fun k => ∃ a ∈ siblings, f.Within k a) := by
  have hf := hc.before.wellFormed
  induction siblings generalizing g c with
  | nil => exact ⟨c, ⟨hc, fun _ => rfl, nofun⟩, fun _ k ⟨_, hk, _⟩ => nomatch hk⟩
  | cons a siblings ih =>
      obtain ⟨hfirst, hrest⟩ := List.nodup_cons.mp hnodup
      have ha := hsiblings a List.mem_cons_self
      -- The siblings of `a` and what is above of it are not inside of it.
      have hapart : ∀ b ∈ siblings, ∀ k, f.Within k b → ¬ f.Within k a := by
        intro b hb k hkb hka
        have hlink := hsiblings b (List.mem_cons_of_mem _ hb)
        exact hfirst (hf.siblings_disjoint ha hlink hka hkb ▸ hb)
      have hup : ∀ k, f.Within i k → ¬ f.Within k a := fun k hk hka =>
        hf.not_within_of_link ha (hk.trans hka)
      have hself : ∀ k, f.Within a k → c k = k := by
        intro k hk
        rcases ReflTransGen.cases_head hk with rfl | ⟨q, hlink, hpath⟩
        · exact hbelow a List.mem_cons_self a .refl
        · exact habove k (Link.unique hlink ha ▸ hpath)
      rcases hact a List.mem_cons_self hc
        ⟨.head ha hi, hself, hbelow a List.mem_cons_self⟩ with ⟨c₁, hfolds, hexhausted⟩
      rcases ih (fun b hb => hact b (List.mem_cons_of_mem _ hb))
        (fun b hb => hsiblings b (List.mem_cons_of_mem _ hb)) hrest hfolds.folded
        (fun k hk => (hfolds.outside (hup k hk)).trans (habove k hk))
        (fun b hb k hk => (hfolds.outside (hapart b hb k hk)).trans
          (hbelow b (List.mem_cons_of_mem _ hb) k hk)) with ⟨c₂, hfolds', hexhausted'⟩
      refine ⟨c₂, ⟨?_, ?_, ?_⟩, ?_⟩
      · rw [Edit.run_changeAll_cons]
        exact hfolds'.folded
      · intro k hk
        refine (hfolds'.outside ?_).trans (hfolds.outside ?_)
        · rintro ⟨b, hb, hkb⟩
          exact hk ⟨b, List.mem_cons_of_mem _ hb, hkb⟩
        · exact fun hka => hk ⟨a, List.mem_cons_self, hka⟩
      · rw [Edit.run_changeAll_cons]
        intro hchanged
        rcases (Bool.or_eq_true _ _).mp hchanged with hhit | hhit
        · rcases hfolds.changed hhit with ⟨k, hk, hvalue⟩
          exact ⟨k, ⟨a, List.mem_cons_self, hk⟩, hvalue⟩
        · rcases hfolds'.changed hhit with ⟨k, ⟨b, hb, hk⟩, hvalue⟩
          exact ⟨k, ⟨b, List.mem_cons_of_mem _ hb, hk⟩, hvalue⟩
      · rintro hdeep k ⟨b, hb, hk⟩ hleft
        rcases List.mem_cons.mp hb with rfl | hb
        · refine hexhausted hdeep hk fun x hx => ?_
          by_cases hpart : ∃ b' ∈ siblings, f.Within x b'
          · rcases hpart with ⟨b', hb', hxb'⟩
            exact absurd hk (hapart b' hb' k (hx.trans hxb'))
          · exact (hfolds'.outside hpart).symm.trans (hleft x hx)
        · exact hexhausted' hdeep ⟨b, hb, hk⟩ hleft

/-- Folding below a node that was not touched yet. With enough fuel nothing is overlooked. -/
theorem run_foldWithin (fuel : Nat) (hc : Folded f g root c) (hi : Folded.Untouched f root c i) :
    ∃ c', Folds f root c c' (f.Within · i)
        ((foldWithin (ofForest f (some root)) fuel i).run g) ∧
      (f.weight i ≤ fuel → Exhausted f root c' (f.Within · i)) := by
  have hf := hc.before.wellFormed
  induction fuel generalizing g c i with
  | zero =>
      refine ⟨c, ⟨hc, fun _ => rfl, nofun⟩, fun hle => ?_⟩
      exact absurd (weight_pos (hc.lt_size_of_untouched hi)) (Nat.not_lt.mpr hle)
  | succ fuel ih =>
      rw [foldWithin, Edit.run_bind]
      rcases hc.run_foldOperation hi with ⟨hnone, hrun⟩ | ⟨hvalue, j, h, hrun, hne, hfolded⟩
      · rcases hc.node (node?_of_lt (hc.lt_size_of_untouched hi)) with ⟨n', hn', hrespells⟩
        have hchildren : g.children (some i) = f.children (some i) := by
          rw [children_of_node? hn', hrespells.children,
            ← children_of_node? (node?_of_lt (hc.lt_size_of_untouched hi))]
          refine (List.map_congr_left fun a ha => ?_).trans (List.map_id _)
          exact hi.below a (.single (hf.linked.mpr ha))
        rw [hrun]
        change ∃ c', Folds f root c c' _ ((Edit.look (·.children (some i)) >>= fun children =>
          Edit.changeAll (foldWithin _ fuel) children).run g) ∧ _
        rw [Edit.run_look_bind, hchildren]
        have hchild : ∀ a ∈ f.children (some i), ∀ {g c}, Folded f g root c →
            Folded.Untouched f root c a →
              ∃ c', Folds f root c c' (f.Within · a)
                  ((foldWithin (ofForest f (some root)) fuel a).run g) ∧
                (f.weight i ≤ fuel + 1 → Exhausted f root c' (f.Within · a)) := by
          intro a ha g c hc' ha'
          rcases ih hc' ha' with ⟨c', hfolds, hexhausted⟩
          refine ⟨c', hfolds, fun hdeep => hexhausted ?_⟩
          exact Nat.le_of_lt_succ ((hf.weight_lt (hf.linked.mpr ha)).trans_le hdeep)
        rcases run_changeAll_siblings hchild (fun a ha => hf.linked.mpr ha) (hf.nodup i) hi.within
          hc hi.above (fun a ha k hk => hi.below k (hk.tail (hf.linked.mpr ha))) with
          ⟨c', hfolds, hexhausted⟩
        refine ⟨c', ⟨hfolds.folded, fun {k} hk => hfolds.outside ?_, fun hchanged => ?_⟩, ?_⟩
        · rintro ⟨a, ha, hka⟩
          exact hk (hka.tail (hf.linked.mpr ha))
        · rcases hfolds.changed hchanged with ⟨k, ⟨a, ha, hka⟩, hvalue⟩
          exact ⟨k, hka.tail (hf.linked.mpr ha), hvalue⟩
        · intro hdeep k hk hleft
          rcases within_iff.mp hk with rfl | ⟨a, hlink, hka⟩
          · exact hnone
          · exact hexhausted hdeep ⟨a, hf.linked.mp hlink, hka⟩ hleft
      · rw [hrun]
        refine ⟨Function.update c i j, ⟨hfolded, fun {k} hk => ?_, fun _ => ⟨i, .refl, hvalue⟩⟩,
          fun _ k hk hleft => ?_⟩
        · refine Function.update_of_ne ?_ j c
          rintro rfl
          exact hk .refl
        · have hmoved := hleft i hk
          rw [Function.update_self] at hmoved
          exact absurd hmoved hne

end Folded
end Untangle
