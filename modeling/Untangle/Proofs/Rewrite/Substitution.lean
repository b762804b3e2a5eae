import Untangle.Proofs.Evaluation.Values
import Untangle.Proofs.Scope.Substituted
import Untangle.Proofs.Tree.Graft
import Untangle.Proofs.Tree.Grown

/-!
# Substituting constants

A tree stays a substituted one when its numbers are written in another way, and when a further
operation, which is still in its place, gives way to a constant that was added for it.
-/

namespace Untangle

open Forest
open Relation (ReflTransGen)

section Constants

variable {f g g' h : Forest} {root i j p : NodeId} {c : NodeId → NodeId} {n : Node Slot}

/-- A constant depends on its own node and on that of its literal. -/
theorem Forest.Constant.mono (hj : g.Constant j)
    (hnode : ∀ {k n}, g.node? (some k) = some n →
      (∀ a ∈ childrenOf n, ∃ m, g.node? (some a) = some m ∧ m.isLiteral = true) →
      h.node? (some k) = some n) : h.Constant j := by
  have hleaf : ∀ {k n}, g.node? (some k) = some n → n.isLiteral = true →
      h.node? (some k) = some n := by
    intro k n hn hliteral
    refine hnode hn ?_
    rw [Node.childrenOf_of_isLiteral hliteral]
    nofun
  cases hj with
  | literal hn hliteral => exact .literal (hleaf hn hliteral) hliteral
  | signed hj hn hliteral =>
      refine .signed (hnode hj fun a ha => ?_) (hleaf hn hliteral) hliteral
      obtain rfl := List.mem_singleton.mp ha
      exact ⟨_, hn, hliteral⟩

/-- No part of a constant is an operation. -/
theorem Forest.Constant.isComputed_eq_false (hg : g.WellFormed) (hj : g.Constant j)
    (hi : g.Within i j) (hn : g.node? (some i) = some n) : n.isComputed = false := by
  have hleaf : ∀ {k m}, g.node? (some k) = some m → m.isLiteral = true → g.Within i k →
      n.isComputed = false := by
    intro k m hm hliteral hik
    rcases within_iff.mp hik with rfl | ⟨a, hlink, _⟩
    · obtain rfl := Option.some.inj (hn.symm.trans hm)
      rcases Node.isLiteral_cases hliteral with ⟨_, _, _, rfl⟩ | ⟨_, _, rfl⟩ | ⟨_, rfl⟩ | rfl <;> rfl
    · have hmem := hg.linked.mp hlink
      rw [children_of_node? hm, Node.childrenOf_of_isLiteral hliteral] at hmem
      cases hmem
  cases hj with
  | literal hm hliteral => exact hleaf hm hliteral hi
  | signed hj hm hliteral =>
      rcases within_iff.mp hi with rfl | ⟨a, hlink, hia⟩
      · obtain rfl := Option.some.inj (hn.symm.trans hj)
        rfl
      · have hmem := hg.linked.mp hlink
        rw [children_of_node? hj] at hmem
        obtain rfl := List.mem_singleton.mp hmem
        exact hleaf hm hliteral hia

namespace Substituted

/-- An operation that is still there has its operands, some of which may be renamed. -/
theorem computed (hs : Substituted f g root c) (hn : f.node? (some i) = some n)
    (hcomputed : n.isComputed = true) : g.node? (some i) = some (n.map (Option.map c)) := by
  rcases hs.node hn with ⟨n', hn', rfl | ⟨x, raw, raw', hnumber, _⟩⟩
  · exact hn'
  · rw [Node.number_of_map hnumber] at hcomputed
    cases hcomputed

/-- An operation that is still there was not renamed, and nothing else was renamed to it. -/
theorem update_comp (hs : Substituted f g root c) (hi : g.Within i root) (hlt : i < f.size) :
    Function.update id i j ∘ c = Function.update c i j := by
  funext k
  by_cases hk : k = i
  · subst hk
    simp [hs.eq_of_within hi]
  · have hck : c k ≠ i := fun heq => hk (hs.carried.eq_of_renamed hlt heq)
    simp [hk, hck]

variable (hs : Substituted f g root c) (hx : Graft g g' h i p j) (hi : g.Within i root)
  (hn : f.node? (some i) = some n) (hcomputed : n.isComputed = true)

include hs hx hn hcomputed

/-- The parent of an operation has a child that is no literal, so it is in no constant. -/
theorem node?_graft {a : NodeId} {m : Node Slot} (hm : g'.node? (some a) = some m)
    (hliterals : ∀ k ∈ childrenOf m, ∃ m', g'.node? (some k) = some m' ∧ m'.isLiteral = true) :
    h.node? (some a) = some m := by
  rw [← hm]
  refine hx.node ?_
  rintro rfl
  rcases hx.owner with ⟨owner, howner, _⟩
  have hsame := (hx.grown.node? (lt_size_of_node? howner)).trans howner
  obtain rfl := Option.some.inj (hm.symm.trans hsame)
  have hg := hs.after.wellFormed
  have hmem : i ∈ childrenOf m := by
    rw [← children_of_node? howner]
    exact hg.linked.mp hx.linked
  rcases hliterals i hmem with ⟨m', hm', hliteral⟩
  have hoperation := hs.computed hn hcomputed
  rw [hx.grown.node? (lt_size_of_node? hoperation), hoperation] at hm'
  obtain rfl := Option.some.inj hm'
  rcases Node.isComputed_cases hcomputed with
    ⟨_, _, _, _, rfl⟩ | ⟨_, _, _, _, rfl | rfl, rfl⟩ <;> cases hliteral

include hi

theorem graft (hchild : childrenOf n ≠ []) (hconst : g'.Constant j) :
    Substituted f h root (Function.update c i j) := by
  have hf := hs.before.wellFormed
  have hg := hs.after.wellFormed
  have hlt := lt_size_of_node? hn
  have hne : i ≠ root := by
    rintro rfl
    cases hs.after.parent.symm.trans hx.linked
  have hcomp := hs.update_comp hi hlt (j := j)
  have hrenamed : ∀ {k}, Function.update c i j k ≠ k → k = i ∨ c k ≠ k := by
    intro k hk
    by_cases hki : k = i
    · exact .inl hki
    · exact .inr (by rwa [Function.update_of_ne hki] at hk)
  refine ⟨hs.before, ⟨hx.wellFormed, ?_, ?_⟩, ?_, ?_, ?_, ?_, ?_, ?_⟩
  · rw [hx.parent_old (hs.root_lt.trans_le hs.size_le) hne.symm]
    exact hs.after.parent
  · rcases hs.after.node with ⟨statements, hroot⟩
    exact ⟨_, (hx.node?_map hg hroot).trans (congrArg some (Node.map_body ..))⟩
  · intro a m hm
    rcases hs.node hm with ⟨m', hm', hrespells⟩
    refine ⟨_, hx.node?_map hg hm', ?_⟩
    rcases hrespells with rfl | ⟨x, raw, raw', hnumber, rfl⟩
    · refine .inl ?_
      rw [Node.map_map, Option.map_comp_map, hcomp]
    · refine .inr ⟨x, raw, raw', ?_, rfl⟩
      rw [Node.number_of_map hnumber]
      rfl
  · intro a ha halt hroot
    have halt' := Nat.lt_of_lt_of_le halt hs.size_le
    rw [hx.parent_old halt' ?_, hs.below (hx.within_of_old hg ha halt') halt hroot]
    rintro rfl
    exact hx.old_not_within hne ha
  · intro k hk
    rcases hrenamed hk with rfl | hck
    · rw [Function.update_self]
      exact hs.size_le.trans (hx.new j .refl)
    · have hki : k ≠ i := fun heq => hck (heq ▸ hs.eq_of_within hi)
      rw [Function.update_of_ne hki]
      exact hs.fresh hck
  · intro k hk hwithin
    rcases hrenamed hk with rfl | hck
    · exact hx.old_not_within hne hwithin
    · rcases hs.operation hck with ⟨m, hm, _⟩
      have hklt := Nat.lt_of_lt_of_le (lt_size_of_node? hm) hs.size_le
      exact hs.gone hck (hx.within_of_old hg hwithin hklt)
  · intro k hk
    rcases hrenamed hk with rfl | hck
    · exact ⟨n, hn, hcomputed, hchild⟩
    · exact hs.operation hck
  · intro k hk
    rcases hrenamed hk with rfl | hck
    · rw [Function.update_self]
      exact hconst.mono (hs.node?_graft hx hn hcomputed)
    · have hki : k ≠ i := fun heq => hck (heq ▸ hs.eq_of_within hi)
      rw [Function.update_of_ne hki]
      have hgrown := (hs.constant hck).mono fun hm _ =>
        (hx.grown.node? (lt_size_of_node? hm)).trans hm
      exact hgrown.mono (hs.node?_graft hx hn hcomputed)

end Substituted

/-!
## Constants that are added
-/

/-- `g'` is `g` with a constant that has no parent yet. -/
structure Forest.AddsConstant (g g' : Forest) (j : NodeId) : Prop where
  grown : Extends g g'
  wellFormed : g'.WellFormed
  free : g'.Free j
  new : ∀ k, g'.Within k j → g.size ≤ k
  constant : g'.Constant j

theorem Forest.WellFormed.addsConstant_literal (hg : g.WellFormed) (hliteral : n.isLiteral = true) :
    g.AddsConstant (g.addNew n).2 g.size := by
  have hadopt : g.Adoptable n := by
    rcases Node.isLiteral_cases hliteral with
      ⟨_, _, _, rfl⟩ | ⟨_, _, rfl⟩ | ⟨_, rfl⟩ | rfl <;> exact adoptable_of_leaf rfl rfl
  have hnone := Node.childrenOf_of_isLiteral hliteral
  refine ⟨(Extends.refl g).add ?_ 0 0, wellFormed_add hg hadopt, free_add_self hadopt, ?_,
    .literal node?_add_self hliteral⟩
  · rw [hnone]
    nofun
  · intro k hk
    rcases within_add_self hg hadopt hk with rfl | ⟨a, ha, _⟩
    · exact Nat.le_refl _
    · rw [hnone] at ha
      cases ha

theorem Forest.AddsConstant.signed (hadds : g.AddsConstant g' j)
    (hn : g'.node? (some j) = some n) (hliteral : n.isLiteral = true) (operator : TokenKind) :
    g.AddsConstant (g'.addNew (.unary .before operator (some j))).2 g'.size := by
  have hchild : ∀ k ∈ childrenOf (.unary .before operator (some j)), k = j := by
    simp [childrenOf, Node.slots]
  have hadopt : g'.Adoptable (.unary .before operator (some j)) := by
    refine ⟨fun k hk => ?_, List.nodup_singleton j, fun _ hentries => by cases hentries⟩
    rw [hchild k hk]
    exact hadds.free
  have hjlt := lt_size_of_node? hn
  refine ⟨hadds.grown.add (fun k hk => ?_) 0 0, wellFormed_add hadds.wellFormed hadopt,
    free_add_self hadopt, ?_, .signed node?_add_self ?_ hliteral⟩
  · rw [hchild k hk]
    exact hadds.new j .refl
  · intro k hk
    rcases within_add_self hadds.wellFormed hadopt hk with rfl | ⟨a, ha, hka⟩
    · exact hadds.grown.size_le
    · rw [hchild a ha] at hka
      exact hadds.new k hka
  · exact (node?_add_of_ne (Nat.ne_of_lt hjlt)).trans hn

/-- A constant that was added takes the place of an operation. -/
theorem Substituted.exists_replace (hs : Substituted f g root c) (hadds : g.AddsConstant g' j)
    (hi : g.Within i root) (hn : f.node? (some i) = some n) (hcomputed : n.isComputed = true)
    (hchild : childrenOf n ≠ []) :
    ∃ p h, g'.replace (some i) (some j) = (h, true) ∧ Graft g g' h i p j ∧
      Substituted f h root (Function.update c i j) := by
  have hlink : ∃ p, g.Link i p := by
    refine hs.after.exists_link hi (hs.computed hn hcomputed) fun statements heq => ?_
    rcases Node.isComputed_cases hcomputed with
      ⟨_, _, _, _, rfl⟩ | ⟨_, _, _, _, rfl | rfl, rfl⟩ <;> cases heq
  rcases hlink with ⟨p, hp⟩
  rcases graft_replace hs.after.wellFormed hadds.grown hadds.wellFormed hadds.free hadds.new hp with
    ⟨h, hreplace, hx⟩
  exact ⟨p, h, hreplace, hx, hs.graft hx hi hn hcomputed hchild hadds.constant⟩

/-!
## Other spellings of numbers
-/

/-- The same forest, but numbers may be written in another way. -/
structure Forest.Respelled (f g : Forest) : Prop where
  alike : f.Alike g
  node : ∀ {i n}, f.node? (some i) = some n →
    ∃ n', g.node? (some i) = some n' ∧ n'.Respells n

theorem Node.Respells.number {x : Float} {raw : Option String}
    (hrespells : (Node.number x raw : Node Slot).Respells n) (raw' : Option String) :
    (Node.number x raw' : Node Slot).Respells n := by
  rcases hrespells with rfl | ⟨y, raw₁, raw₂, rfl, heq⟩
  · exact .inr ⟨x, raw, raw', rfl, rfl⟩
  · obtain ⟨rfl, rfl⟩ := Node.number.inj heq
    exact .inr ⟨x, raw₁, raw', rfl, rfl⟩

namespace Forest.Respelled

theorem refl (f : Forest) : f.Respelled f :=
  ⟨.refl f, fun hn => ⟨_, hn, .inl rfl⟩⟩

theorem setNode {x : Float} {raw : Option String} (hr : f.Respelled g)
    (hi : g.node? (some i) = some (.number x raw)) (raw' : Option String) :
    f.Respelled (g.setNode i (.number x raw')) := by
  have hlt := lt_size_of_node? hi
  refine ⟨hr.alike.trans ((Alike.refl g).setNode ⟨_, hi, rfl⟩), fun {k n} hn => ?_⟩
  rcases hr.node hn with ⟨n', hn', hrespells⟩
  by_cases hk : k = i
  · subst hk
    obtain rfl := Option.some.inj (hi.symm.trans hn')
    exact ⟨_, node?_setNode_self hlt, hrespells.number raw'⟩
  · exact ⟨n', (node?_setNode_of_ne hk).trans hn', hrespells⟩

theorem substituted (hr : f.Respelled g) (hf : f.HasProgram root) :
    Substituted f g root id := by
  refine ⟨hf, ⟨hr.alike.wellFormed hf.wellFormed, ?_, ?_⟩, fun {i n} hn => ?_, ?_,
    fun hne => absurd rfl hne, fun hne => absurd rfl hne, fun hne => absurd rfl hne,
    fun hne => absurd rfl hne⟩
  · rw [hr.alike.parent]
    exact hf.parent
  · rcases hf.node with ⟨statements, hroot⟩
    rcases hr.node hroot with ⟨n', hn', rfl | ⟨_, _, _, heq, _⟩⟩
    · exact ⟨statements, hn'⟩
    · cases heq
  · rw [Option.map_id, Node.map_id]
    exact hr.node hn
  · intro i _ _ _
    exact hr.alike.parent

end Forest.Respelled
end Constants

/-!
## Values

When every constant has the value of what stood in its place, the expressions that are left have
the values that they had. The other way round, a value that is known afterwards was known before to
an evaluation that went deeper: a constant takes two levels at most, whatever it stands for.
-/

open Bindings

/-- The node has the value under all bindings, and two levels of the tree are enough to tell. -/
def Forest.Yields (g : Forest) (j : NodeId) (v : Value) : Prop :=
  ∀ b : Bindings, b.valueWithin? g 2 (some j) = some v

/-- Every constant has the value that was known of what it stands for. -/
structure Valued (f g : Forest) (root : NodeId) (c : NodeId → NodeId) : Prop
    extends Substituted f g root c where
  value : ∀ {i}, c i ≠ i → ∃ v,
    (ofForest f (some root)).evaluate f (some i) = some v ∧ g.Yields (c i) v

section Values

variable {f g : Forest} {root i j : NodeId} {c : NodeId → NodeId} {b : Bindings}
  {value? value?' : Slot → Option Value} {n n' : Node Slot} {s : Slot} {v : Value} {d : Nat}

theorem Node.Respells.nodeValue?_eq (h : n'.Respells n) :
    b.nodeValue? value? s n' = b.nodeValue? value? s n := by
  rcases h with rfl | ⟨x, raw, raw', rfl, rfl⟩ <;> rfl

/-- An operation has no value unless its operands are looked at. -/
theorem Node.nodeValue?_of_isComputed (h : n.isComputed = true) :
    b.nodeValue? (b.valueWithin? f 0) s n = none := by
  rcases isComputed_cases h with ⟨_, _, _, _, rfl⟩ | ⟨_, _, _, _, rfl | rfl, rfl⟩ <;> rfl

namespace Substituted

variable (h : Substituted f g root c)

include h

/-- An expression that was left alone has the value that it had. -/
theorem valueWithin?_of_unmoved (b : Bindings) (d : Nat) (hi : i < f.size)
    (hunmoved : ∀ j, f.Within j i → c j = j) :
    b.valueWithin? g d (some i) = b.valueWithin? f d (some i) := by
  induction d generalizing i with
  | zero => rfl
  | succ d ih =>
      obtain ⟨n, hn⟩ : ∃ n, f.node? (some i) = some n := ⟨_, node?_of_lt hi⟩
      rcases h.node hn with ⟨n', hn', hrespells⟩
      have hslots : ∀ t ∈ n.slots,
          (b.valueWithin? g d ∘ Option.map c) t = b.valueWithin? f d t := by
        intro t ht
        cases t with
        | none => cases d <;> rfl
        | some k =>
            have hlink := h.before.wellFormed.link_of_slot hn ht
            have hk := ih (lt_size_of_parent hlink) fun j hj => hunmoved j (hj.tail hlink)
            rwa [Function.comp_apply, Option.map_some, hunmoved k (.single hlink)]
      rw [valueWithin?, valueWithin?, hn, hn', Option.bind_some, Option.bind_some,
        hrespells.nodeValue?_eq, nodeValue?_map]
      exact nodeValue?_congr hslots

/-- Names that are left have the values that they had. -/
theorem fixedName?_eq (htiered : f.Tiered)
    (hwhole : (ofForest f (some root)).truncated = false) (hi : g.Within i root)
    (hlt : i < f.size) (name : String) :
    (ofForest g (some root)).fixedName? (some i) name =
      (ofForest f (some root)).fixedName? (some i) name := by
  rw [fixedName?, fixedName?, h.isSome_resolve_eq htiered hwhole hi hlt,
    h.isDynamic_eq htiered hwhole hi hlt]

/-- The children of a node that is left are found where it has them now. -/
theorem within_child (hi : g.Within i root) (hn' : g.node? (some i) = some n')
    (hrespells : n'.Respells (n.map (Option.map c))) (hj : some j ∈ n.slots) :
    g.Within (c j) root := by
  refine .head (h.after.wellFormed.linked.mpr ?_) hi
  rw [children_of_node? hn', hrespells.children]
  exact List.mem_map_of_mem (mem_childrenOf.mpr hj)

end Substituted

namespace Valued

variable (h : Valued f g root c) (htiered : f.Tiered)
  (hwhole : (ofForest f (some root)).truncated = false)

include h htiered hwhole

/-- Values that were known are still known. -/
theorem valueWithin?_after (hs : ∀ i, s = some i → g.Within (c i) root)
    (hv : (ofForest f (some root)).valueWithin? f d s = some v) :
    (ofForest g (some root)).valueWithin? g d (s.map c) = some v := by
  induction d generalizing s v with
  | zero => cases hv
  | succ d ih =>
      obtain ⟨n, hn, hvalue⟩ := Option.bind_eq_some_iff.mp hv
      cases s with
      | none => cases hn
      | some i =>
          have hi := hs i rfl
          by_cases hmoved : c i = i
          · rw [hmoved] at hi
            rcases h.node hn with ⟨n', hn', hrespells⟩
            rw [Option.map_some, hmoved]
            refine Option.bind_eq_some_iff.mpr ⟨n', hn', ?_⟩
            rw [hrespells.nodeValue?_eq, nodeValue?_map]
            refine nodeValue?_mono (fun text _ => ?_) (fun t ht v hv => ?_) hvalue
            · exact h.fixedName?_eq htiered hwhole hi (lt_size_of_node? hn) text
            · refine ih (fun k hk => ?_) hv
              exact h.within_child hi hn' hrespells (hk ▸ ht)
          · rcases h.value hmoved with ⟨w, hw, hyields⟩
            obtain rfl := valueWithin?_unique hv hw
            cases d with
            | zero =>
                rcases h.operation hmoved with ⟨m, hm, hcomputed, _⟩
                obtain rfl := Option.some.inj (hn.symm.trans hm)
                rw [Node.nodeValue?_of_isComputed hcomputed] at hvalue
                cases hvalue
            | succ d => exact valueWithin?_mono (Nat.le_add_left 2 d) (hyields _)

/-- Values that are known were known to a deeper evaluation. -/
theorem valueWithin?_before (hs : ∀ i, s = some i → i < f.size ∧ g.Within (c i) root)
    (hv : (ofForest g (some root)).valueWithin? g d (s.map c) = some v) :
    (ofForest f (some root)).valueWithin? f (d + (Limits.evaluationDepth + 1)) s = some v := by
  induction d generalizing s v with
  | zero => cases hv
  | succ d ih =>
      cases s with
      | none => cases hv
      | some i =>
          obtain ⟨hlt, hi⟩ := hs i rfl
          by_cases hmoved : c i = i
          · obtain ⟨n, hn⟩ : ∃ n, f.node? (some i) = some n := ⟨_, node?_of_lt hlt⟩
            rcases h.node hn with ⟨n', hn', hrespells⟩
            rw [hmoved] at hi
            rw [Option.map_some, hmoved, valueWithin?, hn', Option.bind_some,
              hrespells.nodeValue?_eq, nodeValue?_map] at hv
            rw [Nat.add_right_comm]
            refine Option.bind_eq_some_iff.mpr ⟨n, hn, ?_⟩
            refine nodeValue?_mono (fun text _ => ?_) (fun t ht v hv => ?_) hv
            · exact (h.fixedName?_eq htiered hwhole hi hlt text).symm
            · refine ih (fun k hk => ?_) hv
              have ht' : some k ∈ n.slots := hk ▸ ht
              exact ⟨lt_size_of_parent (h.before.wellFormed.link_of_slot hn ht'),
                h.within_child hi hn' hrespells ht'⟩
          · rcases h.value hmoved with ⟨w, hw, hyields⟩
            obtain rfl := valueWithin?_unique hv (hyields _)
            exact valueWithin?_mono (Nat.le_add_left _ _) hw

theorem evaluate_after (hi : g.Within i root)
    (hv : (ofForest f (some root)).evaluate f (some i) = some v) :
    (ofForest g (some root)).evaluate g (some i) = some v := by
  have hmoved := h.eq_of_within hi
  have hs : ∀ j, some i = some j → g.Within (c j) root := by
    rintro j ⟨⟩
    rwa [hmoved]
  have hafter := h.valueWithin?_after htiered hwhole hs hv
  rwa [Option.map_some, hmoved] at hafter

theorem evaluate_before (hi : g.Within i root) (hlt : i < f.size)
    (hv : (ofForest g (some root)).evaluate g (some i) = some v) :
    ∃ d, (ofForest f (some root)).valueWithin? f d (some i) = some v := by
  have hmoved := h.eq_of_within hi
  have hs : ∀ j, some i = some j → j < f.size ∧ g.Within (c j) root := by
    rintro j ⟨⟩
    exact ⟨hlt, hmoved.symm ▸ hi⟩
  rw [evaluate, ← hmoved, ← Option.map_some] at hv
  exact ⟨_, h.valueWithin?_before htiered hwhole hs hv⟩

end Valued
end Values
end Untangle
