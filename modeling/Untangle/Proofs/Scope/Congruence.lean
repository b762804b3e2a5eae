import Untangle.Proofs.Scope.Outline
import Untangle.Proofs.Tree.Slots
import Untangle.Proofs.Tree.WellFormed

/-!
# Relations between outlines

The outline of a node is put together from those of its children, in a way that depends on the kind
of the node. A relation between outlines that is respected by every way of putting them together
holds of two trees with nodes of the same kinds as soon as it holds where they differ.
-/

namespace Untangle

open Forest

namespace Outline

/-- Outlines that are put together in the same way are related if their parts are. -/
structure Congruence (R : Outline → Outline → Prop) : Prop where
  refl : ∀ o, R o o
  append : ∀ {o o' p p'}, R o o' → R p p' → R (o ++ p) (o' ++ p')
  scope : ∀ {kind i o o'}, R o o' → R (.scope kind i o .done) (.scope kind i o' .done)
  vars : ∀ {o o'}, R o o' → R (.vars o .done) (.vars o' .done)

namespace Congruence

variable {R : Outline → Outline → Prop} {o o' p p' : Outline}

theorem ite (_ : Congruence R) {c : Prop} [Decidable c] (h : R o o') (h' : R p p') :
    R (if c then o else p) (if c then o' else p') := by
  split
  · exact h
  · exact h'

theorem concat (hR : Congruence R) {α : Type} {items : List α} {o o' : α → Outline}
    (h : ∀ a ∈ items, R (o a) (o' a)) :
    R (Outline.concat (items.map o)) (Outline.concat (items.map o')) := by
  induction items with
  | nil => exact hR.refl _
  | cons a items ih =>
      rw [List.forall_mem_cons] at h
      exact hR.append h.1 (ih h.2)

end Congruence
end Outline

/-!
## Related slots
-/

/-- What the slots hold is related, whatever it is looked at for. -/
structure Sketch.Relates (R : Outline → Outline → Prop) (f g : Forest) (k k' : Sketch)
    (s s' : Slot) : Prop where
  node : R (k.node s) (k'.node s')
  pattern : ∀ names D, R (k.pattern names D s) (k'.pattern names D s')
  /-- The parameter of a handler declares itself. -/
  own : ∀ names, R (k.pattern names s s) (k'.pattern names s' s')
  name : ∀ kind declaration, R (nameOf f kind s declaration) (nameOf g kind s' declaration)
  /-- A block is a block in both trees, and the statements of both are related. -/
  block : (∃ statements statements', f.node? s = some (.body .block statements) ∧
      g.node? s' = some (.body .block statements') ∧
        R (k.nodes statements) (k'.nodes statements')) ∨
    (f.node? s = none ∧ g.node? s' = none) ∨
    ∃ n n', f.node? s = some n ∧ g.node? s' = some n' ∧
      (∀ statements, n ≠ .body .block statements) ∧
        ∀ statements, n' ≠ .body .block statements
  declarator : ∀ names, R (k.declarator f names s) (k'.declarator g names s')

namespace Sketch

variable {R : Outline → Outline → Prop} {f g : Forest} {k k' : Sketch} {c : NodeId → NodeId}
  {i i' : NodeId} {n n' : Node Slot} {s : Slot} {slots : List Slot}

theorem declarator_of_ne {names : NameKind} (hn : f.node? s = some n)
    (h : ∀ name initializer, n ≠ .declarator name initializer) :
    k.declarator f names s = .done := by
  unfold declarator
  rw [hn]
  split
  · exact absurd (Option.some.inj ‹some n = _›) (h _ _)
  · rfl

/-- A node that is neither a name, nor a block, nor a declarator. -/
structure Nameless (f : Forest) (i : NodeId) (n : Node Slot) : Prop where
  node : f.node? (some i) = some n
  text : n.identifierText? = none
  block : ∀ statements, n ≠ .body .block statements
  declarator : ∀ name initializer, n ≠ .declarator name initializer

theorem Nameless.nameOf (h : Nameless f i n) {kind : BindingKind} {declaration : NodeId} :
    nameOf f kind (some i) declaration = .done := by
  have htext : f.identifierText? (some i) = none := by rw [identifierText?, h.node]; exact h.text
  unfold Sketch.nameOf
  rw [htext]

namespace Relates

/-- Nodes whose only use is to be walked. -/
theorem nameless (hR : Outline.Congruence R) (h : Nameless f i n) (h' : Nameless g i' n')
    (hnode : R (k.node (some i)) (k'.node (some i')))
    (hpattern : ∀ names D D', R (k.pattern names D (some i)) (k'.pattern names D' (some i'))) :
    Relates R f g k k' (some i) (some i') := by
  refine ⟨hnode, fun names D => hpattern names D D, fun names => hpattern .., ?_, ?_, ?_⟩
  · intro kind declaration
    rw [h.nameOf, h'.nameOf]
    exact hR.refl _
  · exact .inr (.inr ⟨n, n', h.node, h'.node, h.block, h'.block⟩)
  · intro names
    rw [declarator_of_ne h.node h.declarator, declarator_of_ne h'.node h'.declarator]
    exact hR.refl _

theorem empty (hR : Outline.Congruence R) (hnode : R (k.node none) (k'.node none))
    (hpattern : ∀ names D, R (k.pattern names D none) (k'.pattern names D none)) :
    Relates R f g k k' none none :=
  ⟨hnode, hpattern, fun _ => hpattern .., fun _ _ => hR.refl _, .inr (.inl ⟨rfl, rfl⟩),
    fun _ => hR.refl _⟩

/-- A node whose children are renamed is related to itself if the children are related. -/
theorem mapped (hR : Outline.Congruence R) (hn : f.node? (some i) = some n)
    (hn' : g.node? (some i) = some (n.map (Option.map c)))
    (hnode : R (k.node (some i)) (k'.node (some i)))
    (hpattern : ∀ names D, R (k.pattern names D (some i)) (k'.pattern names D (some i)))
    (hnodes : ∀ s ∈ n.slots, R (k.node s) (k'.node (s.map c)))
    (hpatterns : ∀ s ∈ n.slots, ∀ names D,
      R (k.pattern names D s) (k'.pattern names D (s.map c))) :
    Relates R f g k k' (some i) (some i) := by
  have hother : (∀ statements, n ≠ .body .block statements) →
      ∀ statements, n.map (Option.map c) ≠ .body .block statements := by
    intro hblock statements heq
    cases n with
    | body form entries =>
        cases form with
        | block => exact hblock _ rfl
        | program | staticBlock => cases heq
    | guarded form condition statement => cases form <;> cases heq
    | _ => cases heq
  refine ⟨hnode, hpattern, fun _ => hpattern .., ?_, ?_, ?_⟩
  · intro kind declaration
    have htext : g.identifierText? (some i) = f.identifierText? (some i) := by
      rw [identifierText?, identifierText?, hn, hn']
      cases n with
      | guarded form condition statement => cases form <;> rfl
      | _ => rfl
    unfold nameOf
    rw [htext]
    exact hR.refl _
  · by_cases hblock : ∃ statements, n = .body .block statements
    · rcases hblock with ⟨statements, rfl⟩
      refine .inl ⟨statements, _, hn, Node.map_body (Option.map c) .block statements ▸ hn', ?_⟩
      unfold nodes
      rw [List.map_map]
      exact hR.concat fun s hs => hnodes s hs
    · push Not at hblock
      exact .inr (.inr ⟨n, _, hn, hn', hblock, hother hblock⟩)
  · intro names
    by_cases hdeclarator : ∃ name initializer, n = .declarator name initializer
    · rcases hdeclarator with ⟨name, initializer, rfl⟩
      unfold Sketch.declarator
      rw [hn, hn']
      exact hR.append (hpatterns _ List.mem_cons_self _ _)
        (hnodes _ (List.mem_cons_of_mem _ List.mem_cons_self))
    · push Not at hdeclarator
      rw [declarator_of_ne hn hdeclarator, declarator_of_ne hn' ?_]
      · exact hR.refl _
      · intro name initializer heq
        cases n with
        | declarator name initializer => exact hdeclarator _ _ rfl
        | guarded form condition statement => cases form <;> cases heq
        | _ => cases heq

end Relates

/-!
## Nodes of one kind
-/

section Mapped

variable (hR : Outline.Congruence R)

include hR

theorem nodes_map (h : ∀ s ∈ slots, Relates R f g k k' s (s.map c)) :
    R (k.nodes slots) (k'.nodes (slots.map (Option.map c))) := by
  unfold nodes
  rw [List.map_map]
  exact hR.concat fun s hs => (h s hs).node

theorem patterns_map {names : NameKind} {D : Option NodeId}
    (h : ∀ s ∈ slots, Relates R f g k k' s (s.map c)) :
    R (.concat (slots.map (k.pattern names D)))
      (.concat ((slots.map (Option.map c)).map (k'.pattern names D))) := by
  rw [List.map_map]
  exact hR.concat fun s hs => (h s hs).pattern names D

theorem children_map (h : ∀ s ∈ n.slots, Relates R f g k k' s (s.map c)) :
    R (k.children n) (k'.children (n.map (Option.map c))) := by
  unfold children
  rw [Node.childrenOf_map, List.map_map]
  exact hR.concat fun i hi => (h (some i) (mem_childrenOf.mp hi)).node

theorem functionBody_map {parameters : List Slot} {code : Slot}
    (hparameters : ∀ s ∈ parameters, Relates R f g k k' s (s.map c))
    (hcode : Relates R f g k k' code (code.map c)) :
    R (k.functionBody f parameters code)
      (k'.functionBody g (parameters.map (Option.map c)) (code.map c)) := by
  refine hR.append (patterns_map hR hparameters) ?_
  rcases hcode.block with ⟨_, _, hn, hn', hstatements⟩ | ⟨hn, hn'⟩ |
    ⟨n, n', hn, hn', hblock, hblock'⟩
  · rw [hn, hn']
    exact hstatements
  · rw [hn, hn']
    exact hR.refl _
  · rw [hn, hn']
    split
    · exact absurd (Option.some.inj ‹some n = _›) (hblock _)
    · exact hcode.node
    · cases ‹some n = none›

theorem function_map {form : FunctionForm} {ident code : Slot} {parameters : List Slot}
    (hident : Relates R f g k k' ident (ident.map c))
    (hparameters : ∀ s ∈ parameters, Relates R f g k k' s (s.map c))
    (hcode : Relates R f g k k' code (code.map c)) :
    R (k.function f i form ident parameters code)
      (k'.function g i form (ident.map c) (parameters.map (Option.map c)) (code.map c)) := by
  have hbody := functionBody_map hR hparameters hcode
  refine hR.append (hR.ite (hident.name _ i) (hR.refl _)) (hR.scope (hR.append ?_ hbody))
  exact hR.ite (hident.name _ i) (hR.refl _)

theorem classLike_map {form : ClassForm} {ident heritage : Slot} {members : List Slot}
    (h : ∀ s ∈ (Node.classLike form ident heritage members).slots,
      Relates R f g k k' s (s.map c)) :
    R (k.classLike f i form ident (.classLike form ident heritage members))
      (k'.classLike g i form (ident.map c)
        ((Node.classLike form ident heritage members).map (Option.map c))) := by
  have hinside := hR.append ((h ident List.mem_cons_self).name .«class» i) (children_map hR h)
  exact hR.ite (hR.scope hinside) hinside

theorem handler_map {parameter block : Slot}
    (hparameter : Relates R f g k k' parameter (parameter.map c))
    (hblock : Relates R f g k k' block (block.map c)) :
    R (k.handler f i parameter block) (k'.handler g i (parameter.map c) (block.map c)) := by
  refine hR.scope (hR.append (hparameter.own _) ?_)
  rcases hblock.block with ⟨_, _, hn, hn', hstatements⟩ | ⟨hn, hn'⟩ |
    ⟨n, n', hn, hn', hnot, hnot'⟩
  · rw [hn, hn']
    exact hstatements
  · rw [hn, hn']
    exact hR.refl _
  · rw [hn, hn']
    split
    · exact absurd (Option.some.inj ‹some n = _›) (hnot _)
    · split
      · exact absurd (Option.some.inj ‹some n' = _›) (hnot' _)
      · exact hR.refl _

theorem ofNode_map (h : ∀ s ∈ n.slots, Relates R f g k k' s (s.map c)) :
    R (k.ofNode f i n) (k'.ofNode g i (n.map (Option.map c))) := by
  have hchildren := children_map hR h
  cases n with
  | function form ident parameters code isAsync isGenerator =>
      rw [Node.map_function]
      refine function_map hR (h _ List.mem_cons_self) (fun s hs => h s ?_) (h _ ?_)
      · exact List.mem_cons_of_mem _ (List.mem_append_left _ hs)
      · exact List.mem_cons_of_mem _ (List.mem_append_right _ List.mem_cons_self)
  | variableStatement kind declarators =>
      have hmap : (Node.variableStatement kind declarators).map (Option.map c) =
          .variableStatement kind (declarators.map (Option.map c)) := by
        simp [Node.map, Node.mapM]
      rw [hmap]
      change R (k.variableStatement f kind declarators)
        (k'.variableStatement g kind (declarators.map (Option.map c)))
      unfold variableStatement
      rw [List.map_map]
      exact hR.vars (hR.concat fun s hs => (h s hs).declarator _)
  | classLike form ident heritage members => exact classLike_map hR h
  | body form statements =>
      rw [Node.map_body] at hchildren ⊢
      cases form with
      | program => exact hchildren
      | block => exact hR.scope (nodes_map hR h)
      | staticBlock => exact hR.scope (nodes_map hR h)
  | forLoop initializer condition increment statement => exact hR.scope hchildren
  | iteration form target subject statement isAwait => exact hR.scope hchildren
  | switch subject clauses =>
      have hmap : (Node.switch subject clauses).map (Option.map c) =
          .switch (subject.map c) (clauses.map (Option.map c)) := by
        simp [Node.map, Node.mapM]
      rw [hmap]
      have hclauses := nodes_map hR fun s hs => h s (List.mem_cons_of_mem _ hs)
      exact hR.append (h _ List.mem_cons_self).node (hR.scope hclauses)
  | catchClause parameter block =>
      refine handler_map hR (h _ List.mem_cons_self) (h _ ?_)
      exact List.mem_cons_of_mem _ List.mem_cons_self
  | guarded form condition statement => cases form <;> exact hchildren
  | _ => exact hchildren

theorem ofPattern_map {names : NameKind} {D : Option NodeId}
    (h : ∀ s ∈ n.slots, Relates R f g k k' s (s.map c)) :
    R (k.ofPattern names D i n) (k'.ofPattern names D i (n.map (Option.map c))) := by
  cases n with
  | list form elements =>
      have hmap : (Node.list form elements).map (Option.map c) =
          .list form (elements.map (Option.map c)) := by
        simp [Node.map, Node.mapM]
      rw [hmap]
      cases form with
      | objectPattern => exact patterns_map hR h
      | arrayPattern => exact patterns_map hR h
      | _ => exact hR.refl _
  | property kind key value computed =>
      refine hR.append (hR.ite (h _ List.mem_cons_self).node (hR.refl _)) ?_
      exact (h _ (List.mem_cons_of_mem _ List.mem_cons_self)).pattern ..
  | binary form left operator right =>
      cases form with
      | default =>
          refine hR.append ((h _ List.mem_cons_self).pattern ..) (h _ ?_).node
          exact List.mem_cons_of_mem _ List.mem_cons_self
      | _ => exact hR.refl _
  | operand form expression =>
      cases form with
      | rest => exact (h _ List.mem_cons_self).pattern ..
      | _ => exact hR.refl _
  | name form text => cases form <;> exact hR.refl _
  | guarded form condition statement => cases form <;> exact hR.refl _
  | _ => exact hR.refl _

end Mapped

end Sketch
end Untangle
