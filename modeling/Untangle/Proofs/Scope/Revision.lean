import Untangle.Proofs.Scope.Chart
import Untangle.Proofs.Scope.Congruence

/-!
# Revised trees

An edit that exchanges expressions which declare nothing, or takes a function declaration out,
changes the outline of a tree only in what it says of that function.
-/

namespace Untangle

open Forest

/-!
## Trimmed outlines
-/

namespace Outline

/-- An outline without what one node declares and without its scope, and without cuts. -/
def trim (dead : Option NodeId) : Outline → Outline
  | done => done
  | declare hoisted kind name nameNode declaration rest =>
      if dead = some declaration then rest.trim dead
      else declare hoisted kind name nameNode declaration (rest.trim dead)
  | scope kind node inside rest =>
      if dead = some node then rest.trim dead
      else scope kind node (inside.trim dead) (rest.trim dead)
  | vars inside rest => vars (inside.trim dead) (rest.trim dead)
  | cut rest => rest.trim dead

/-- The outlines differ at most in what the node declares and in its scope. Where a node is taken
out, the second outline does not leave out more than the first one. -/
structure Same (dead : Option NodeId) (o o' : Outline) : Prop where
  trim : o.trim dead = o'.trim dead
  whole : dead ≠ none → o.Whole → o'.Whole

variable {dead : Option NodeId} {o o' p p' : Outline}

@[simp] theorem trim_append : (o ++ o').trim dead = o.trim dead ++ o'.trim dead := by
  induction o with
  | done => rfl
  | declare hoisted kind name nameNode declaration rest ih =>
      change (declare hoisted kind name nameNode declaration (rest ++ o')).trim dead = _
      simp only [trim, ih]
      split <;> rfl
  | scope kind node inside rest _ ih =>
      change (scope kind node inside (rest ++ o')).trim dead = _
      simp only [trim, ih]
      split <;> rfl
  | vars inside rest _ ih => exact congrArg (vars (inside.trim dead)) ih
  | cut rest ih => exact ih

/-- Cuts say nothing about declarations. -/
theorem chart_trim_none (o : Outline) (x y z : NodeId) (c : Chart) :
    (o.trim none).chart x y z c = o.chart x y z c := by
  induction o generalizing x y z c with
  | done => rfl
  | declare hoisted kind name nameNode declaration rest ih => exact ih ..
  | scope kind node inside rest ih ih' =>
      change (rest.trim none).chart x y z ((inside.trim none).chart ..) = _
      rw [ih, ih']
      rfl
  | vars inside rest ih ih' =>
      change (rest.trim none).chart x y z ((inside.trim none).chart ..) = _
      rw [ih, ih']
      rfl
  | cut rest ih => exact ih ..

theorem openers_trim_none (o : Outline) : (o.trim none).openers = o.openers := by
  induction o with
  | done => rfl
  | declare hoisted kind name nameNode declaration rest ih => exact ih
  | scope kind node inside rest ih ih' =>
      exact congrArg (node :: ·) (congrArg₂ (· ++ ·) ih ih')
  | vars inside rest ih ih' => exact congrArg₂ (· ++ ·) ih ih'
  | cut rest ih => exact ih

theorem names_trim_none (o : Outline) : (o.trim none).names = o.names := by
  induction o with
  | done => rfl
  | declare hoisted kind name nameNode declaration rest ih => exact congrArg (nameNode :: ·) ih
  | scope kind node inside rest ih ih' => exact congrArg₂ (· ++ ·) ih ih'
  | vars inside rest ih ih' => exact congrArg₂ (· ++ ·) ih ih'
  | cut rest ih => exact ih

namespace Same

theorem refl (dead : Option NodeId) (o : Outline) : Same dead o o :=
  ⟨rfl, fun _ => id⟩

theorem symm (h : Same none o o') : Same none o' o :=
  ⟨h.trim.symm, fun hdead => absurd rfl hdead⟩

theorem trans (h : Same dead o o') (h' : Same dead o' p) : Same dead o p :=
  ⟨h.trim.trans h'.trim, fun hdead ho => h'.whole hdead (h.whole hdead ho)⟩

theorem append (h : Same dead o o') (h' : Same dead p p') : Same dead (o ++ p) (o' ++ p') := by
  refine ⟨?_, fun hdead hwhole => ?_⟩
  · rw [trim_append, trim_append, h.trim, h'.trim]
  · rw [whole_append] at hwhole ⊢
    exact hwhole.imp (h.whole hdead) (h'.whole hdead)

theorem scope {kind : ScopeKind} {i : NodeId} (h : Same dead o o') :
    Same dead (scope kind i o done) (.scope kind i o' .done) := by
  refine ⟨?_, fun hdead hwhole => ⟨h.whole hdead hwhole.1, trivial⟩⟩
  simp only [Outline.trim, h.trim]

theorem vars (h : Same dead o o') : Same dead (vars o done) (.vars o' .done) := by
  refine ⟨?_, fun hdead hwhole => ⟨h.whole hdead hwhole.1, trivial⟩⟩
  simp only [Outline.trim, h.trim]

theorem congruence (dead : Option NodeId) : Congruence (Same dead) :=
  ⟨refl dead, append, scope, vars⟩

/-- An entry that contributes nothing may be left out. -/
theorem concat_erase {α : Type} [BEq α] [LawfulBEq α] {items : List α} {o o' : α → Outline}
    {b : α} (hb : Same dead (o b) done) (h : ∀ a ∈ items, Same dead (o a) (o' a)) :
    Same dead (Outline.concat (items.map o)) (Outline.concat ((items.erase b).map o')) := by
  induction items with
  | nil => exact refl dead _
  | cons a items ih =>
      rw [List.forall_mem_cons] at h
      by_cases ha : a = b
      · subst ha
        rw [List.erase_cons_head]
        exact (append hb ((congruence dead).concat h.2)).trans (refl dead _)
      · rw [List.erase_cons_tail (by simpa using ha)]
        exact append h.1 (ih h.2)

theorem chart_eq (h : Same none o o') (x y z : NodeId) (c : Chart) :
    o.chart x y z c = o'.chart x y z c := by
  rw [← chart_trim_none o, h.trim, chart_trim_none]

theorem openers_eq (h : Same none o o') : o.openers = o'.openers := by
  rw [← openers_trim_none o, h.trim, openers_trim_none]

theorem names_eq (h : Same none o o') : o.names = o'.names := by
  rw [← names_trim_none o, h.trim, names_trim_none]

end Same
end Outline

/-!
## Revisions
-/

open Outline (Same)

/-- How the node at a place is changed. Children are renamed; besides, an expression makes way for
another one that declares the same, or the node that is taken out is dropped from a list. -/
inductive Revision (f g : Forest) (dead : Option NodeId) (c : NodeId → NodeId) :
    Node Slot → Node Slot → Prop
  | mapped (n : Node Slot) : Revision f g dead c n (n.map (Option.map c))
  | expression {s s' : Slot} (hdead : dead = none)
      (h : ∀ depth, Same dead ((Sketch.ofDepth f depth).node s) ((Sketch.ofDepth g depth).node s')) :
      Revision f g dead c (.operand .expressionStatement s) (.operand .expressionStatement s')
  | body {d : NodeId} (form : BodyForm) (statements : List Slot) (hd : dead = some d) :
      Revision f g dead c (.body form statements)
        (.body form ((statements.erase (some d)).map (Option.map c)))
  | clause {d : NodeId} (test : Slot) (statements : List Slot) (hd : dead = some d) :
      Revision f g dead c (.caseClause test statements)
        (.caseClause (test.map c) ((statements.erase (some d)).map (Option.map c)))

/-- The second forest is the first one after an edit. The node that is taken out, if any, is a
function declaration; where a statement must stand, an empty one takes its place. -/
structure Revised (f g : Forest) (dead : Option NodeId) (c : NodeId → NodeId) : Prop where
  node : ∀ {i n}, f.node? (some i) = some n →
    ∃ n', g.node? (some i) = some n' ∧ Revision f g dead c n n'
  moved : ∀ {i}, c i ≠ i → dead = some i ∧ g.node? (some (c i)) = some (.bare .emptyStatement)
  dead : ∀ {d}, dead = some d → ∃ ident parameters code isAsync isGenerator,
    f.node? (some d) = some (.function .declaration ident parameters code isAsync isGenerator)

namespace Revised

variable {f g : Forest} {dead : Option NodeId} {c : NodeId → NodeId} {depth : Nat}
  {i d : NodeId} {s : Slot}

/-- The slot holds nothing or a node of the forest. -/
def Live (f : Forest) (s : Slot) : Prop :=
  ∀ i, s = some i → i < f.size

theorem live_of_slot {n : Node Slot} (hf : f.WellFormed) (hn : f.node? (some i) = some n)
    (hs : s ∈ n.slots) : Live f s := by
  rintro j rfl
  refine hf.filled (children_of_node? hn ▸ mem_childrenOf.mpr hs : j ∈ f.children (some i))

theorem same_of_dead (h : Revised f g dead c) (hd : dead = some d) :
    Same dead ((Sketch.ofDepth f depth).node (some d)) .done := by
  refine ⟨?_, fun _ _ => trivial⟩
  rcases h.dead hd with ⟨ident, parameters, code, isAsync, isGenerator, hn⟩
  cases depth with
  | zero => rfl
  | succ depth =>
      have hname : ((Sketch.nameOf f .function ident d).trim dead) = .done := by
        unfold Sketch.nameOf
        split
        · exact if_pos hd
        · rfl
      have hscope : ∀ o, (Outline.scope .function d o .done).trim dead = .done :=
        fun o => if_pos hd
      simp only [Sketch.ofDepth, hn]
      change Outline.trim dead (Sketch.nameOf f .function ident d ++ _) = _
      rw [Outline.trim_append, hname, hscope]
      rfl

/-- A child that is renamed contributes nothing, whatever it is looked at for, and neither does the
one in its place. -/
structure Blank (f g : Forest) (dead : Option NodeId) (i i' : NodeId) : Prop where
  node : ∀ depth,
    Same dead ((Sketch.ofDepth f depth).node (some i)) ((Sketch.ofDepth g depth).node (some i'))
  pattern : ∀ depth names D D', Same dead ((Sketch.ofDepth f depth).pattern names D (some i))
    ((Sketch.ofDepth g depth).pattern names D' (some i'))
  nameless : ∃ n, Sketch.Nameless f i n
  nameless' : ∃ n, Sketch.Nameless g i' n

theorem blank (h : Revised f g dead c) (hi : c i ≠ i) : Blank f g dead i (c i) := by
  rcases h.moved hi with ⟨hd, hempty⟩
  rcases h.dead hd with ⟨ident, parameters, code, isAsync, isGenerator, hn⟩
  refine ⟨?_, ?_, ⟨_, hn, rfl, nofun, nofun⟩, ⟨_, hempty, rfl, nofun, nofun⟩⟩
  · intro depth
    cases depth with
    | zero => exact .refl dead _
    | succ depth =>
        have hdone : (Sketch.ofDepth g (depth + 1)).node (some (c i)) = .done :=
          Sketch.ofDepth_node hempty depth
        rw [hdone]
        exact h.same_of_dead hd
  · intro depth names D D'
    cases depth with
    | zero => exact .refl dead _
    | succ depth =>
        simp only [Sketch.ofDepth, hn, hempty]
        exact .refl dead _

/-- A live slot is empty, keeps its node, or has its node replaced by one that contributes nothing
either. -/
theorem slot_cases (h : Revised f g dead c) (hs : Live f s) :
    s = none ∨ (∃ i n n', s = some i ∧ s.map c = some i ∧ f.node? (some i) = some n ∧
      g.node? (some i) = some n' ∧ Revision f g dead c n n') ∨
    ∃ i, s = some i ∧ Blank f g dead i (c i) := by
  cases s with
  | none => exact Or.inl rfl
  | some i =>
      by_cases hi : c i = i
      · have hn := node?_of_lt (hs i rfl)
        rcases h.node hn with ⟨n', hn', hrevision⟩
        exact Or.inr (Or.inl ⟨i, _, n', rfl, congrArg some hi, hn, hn', hrevision⟩)
      · exact Or.inr (Or.inr ⟨i, rfl, h.blank hi⟩)

theorem identifierText?_of_revision {n n' : Node Slot} (h : Revision f g dead c n n') :
    n'.identifierText? = n.identifierText? := by
  cases h with
  | mapped =>
      cases n with
      | guarded form condition statement => cases form <;> rfl
      | _ => rfl
  | expression _ _ => rfl
  | body _ _ _ => rfl
  | clause _ _ _ => rfl

/-!
## Outlines of revised trees
-/

/-- Up to so many levels the outlines are the same, apart from the node that is taken out. -/
structure Matches (f g : Forest) (dead : Option NodeId) (c : NodeId → NodeId) (depth : Nat) :
    Prop where
  node : ∀ {s}, Live f s →
    Same dead ((Sketch.ofDepth f depth).node s) ((Sketch.ofDepth g depth).node (s.map c))
  pattern : ∀ {names D s}, Live f s →
    Same dead ((Sketch.ofDepth f depth).pattern names D s)
      ((Sketch.ofDepth g depth).pattern names D (s.map c))

/-- The expression of a statement is all that the statement declares. -/
theorem same_expression :
    Same none ((Sketch.ofDepth f depth).children (.operand .expressionStatement s))
      ((Sketch.ofDepth f depth).node s) := by
  refine ⟨?_, fun hdead => absurd rfl hdead⟩
  cases s with
  | none => cases depth <;> rfl
  | some i => exact congrArg (Outline.trim none) (Outline.append_done _)

section Step

variable {slots : List Slot} {n n' : Node Slot} (h : Revised f g dead c) (hf : f.WellFormed)
  (ih : Matches f g dead c depth)

include h ih

theorem same_erased (hd : dead = some d) (hs : ∀ s ∈ slots, Live f s) :
    Same dead ((Sketch.ofDepth f depth).nodes slots)
      ((Sketch.ofDepth g depth).nodes ((slots.erase (some d)).map (Option.map c))) := by
  unfold Sketch.nodes
  rw [List.map_map]
  exact .concat_erase (h.same_of_dead hd) fun s hmem => ih.node (hs s hmem)

include hf

/-- What a live slot holds is related to what it holds after the edit. -/
theorem relates (hs : Live f s) :
    Sketch.Relates (Same dead) f g (Sketch.ofDepth f depth) (Sketch.ofDepth g depth) s
      (s.map c) := by
  have hcongruence := Same.congruence dead
  have hpattern : ∀ names D, Same dead ((Sketch.ofDepth f depth).pattern names D s)
      ((Sketch.ofDepth g depth).pattern names D (s.map c)) := fun _ _ => ih.pattern hs
  rcases h.slot_cases hs with rfl | ⟨i, n, n', rfl, hc, hn, hn', hrevision⟩ | ⟨i, rfl, hi⟩
  · exact .empty hcongruence (ih.node hs) hpattern
  · have hlive : ∀ s ∈ n.slots, Live f s := fun s hs => live_of_slot hf hn hs
    have hnode := ih.node hs
    rw [hc] at hnode hpattern ⊢
    have hother : n.identifierText? = none → n'.identifierText? = none →
        (∀ statements, n ≠ .body .block statements) →
        (∀ statements, n' ≠ .body .block statements) →
        (∀ name initializer, n ≠ .declarator name initializer) →
        (∀ name initializer, n' ≠ .declarator name initializer) →
          Sketch.Relates (Same dead) f g (Sketch.ofDepth f depth) (Sketch.ofDepth g depth)
            (some i) (some i) := by
      intro htext htext' hblock hblock' hdeclarator hdeclarator'
      refine ⟨hnode, hpattern, fun names => hpattern .., fun kind declaration => ?_,
        .inr (.inr ⟨n, n', hn, hn', hblock, hblock'⟩), fun names => ?_⟩
      · rw [Sketch.Nameless.nameOf ⟨hn, htext, hblock, hdeclarator⟩,
          Sketch.Nameless.nameOf ⟨hn', htext', hblock', hdeclarator'⟩]
        exact .refl dead _
      · rw [Sketch.declarator_of_ne hn hdeclarator, Sketch.declarator_of_ne hn' hdeclarator']
        exact .refl dead _
    cases hrevision with
    | mapped =>
        exact .mapped hcongruence hn hn' hnode hpattern (fun s hs => ih.node (hlive s hs))
          fun s hs names D => ih.pattern (hlive s hs)
    | expression _ _ => exact hother rfl rfl nofun nofun nofun nofun
    | clause _ _ _ => exact hother rfl rfl nofun nofun nofun nofun
    | body form statements hd =>
        cases form with
        | program | staticBlock => exact hother rfl rfl nofun nofun nofun nofun
        | block =>
            refine ⟨hnode, hpattern, fun names => hpattern .., fun kind declaration => ?_,
              .inl ⟨statements, _, hn, hn', h.same_erased ih hd hlive⟩, fun names => ?_⟩
            · unfold Sketch.nameOf
              rw [identifierText?, identifierText?, hn, hn']
              exact .refl dead _
            · rw [Sketch.declarator_of_ne hn (by simp), Sketch.declarator_of_ne hn' (by simp)]
              exact .refl dead _
  · rcases hi.nameless with ⟨n, hn⟩
    rcases hi.nameless' with ⟨n', hn'⟩
    exact .nameless hcongruence hn hn' (hi.node depth) (hi.pattern depth)

omit hf in
/-- Dropping a statement from a list drops it from the children. -/
theorem same_dropped (before : List Slot) (hd : dead = some d)
    (hlive : ∀ s ∈ n.slots, Live f s) (hn : n.slots = before ++ slots)
    (hn' : n'.slots = before.map (Option.map c) ++ (slots.erase (some d)).map (Option.map c)) :
    Same dead ((Sketch.ofDepth f depth).children n) ((Sketch.ofDepth g depth).children n') := by
  have hchildren : childrenOf n' =
      (before.filterMap id).map c ++ ((slots.filterMap id).erase d).map c := by
    rw [childrenOf, hn', List.filterMap_append, filterMap_id_map, filterMap_id_map,
      filterMap_id_erase]
  have hnode : ∀ i ∈ childrenOf n, Same dead ((Sketch.ofDepth f depth).node (some i))
      ((Sketch.ofDepth g depth).node (some (c i))) :=
    fun i hi => ih.node (hlive (some i) (mem_childrenOf.mp hi))
  unfold Sketch.children
  rw [hchildren]
  rw [childrenOf, hn, List.filterMap_append] at hnode ⊢
  rw [List.map_append, List.map_append, Outline.concat_append, Outline.concat_append,
    List.map_map, List.map_map]
  have hbefore := (Same.congruence dead).concat fun i hi => hnode i (List.mem_append_left _ hi)
  refine .append hbefore ?_
  exact .concat_erase (h.same_of_dead hd) fun i hi => hnode i (List.mem_append_right _ hi)

theorem same_ofNode (hn : f.node? (some i) = some n) (hrevision : Revision f g dead c n n') :
    Same dead ((Sketch.ofDepth f depth).ofNode f i n)
      ((Sketch.ofDepth g depth).ofNode g i n') := by
  have hlive : ∀ s ∈ n.slots, Live f s := fun s hs => live_of_slot hf hn hs
  cases hrevision with
  | @expression s s' hdead hsame =>
      subst hdead
      exact same_expression.trans ((hsame depth).trans same_expression.symm)
  | body form statements hd =>
      have herased := h.same_erased ih hd hlive
      cases form with
      | program =>
          exact h.same_dropped ih [] hd hlive (List.nil_append statements).symm rfl
      | block => exact .scope herased
      | staticBlock => exact .scope herased
  | clause test statements hd =>
      exact h.same_dropped ih [test] hd hlive rfl rfl
  | mapped =>
      exact Sketch.ofNode_map (Same.congruence dead) fun s hs => h.relates hf ih (hlive s hs)

theorem same_ofPattern {names : NameKind} {D : Option NodeId} (hn : f.node? (some i) = some n)
    (hrevision : Revision f g dead c n n') :
    Same dead ((Sketch.ofDepth f depth).ofPattern names D i n)
      ((Sketch.ofDepth g depth).ofPattern names D i n') := by
  cases hrevision with
  | expression _ _ => exact .refl dead _
  | body _ _ _ => exact .refl dead _
  | clause _ _ _ => exact .refl dead _
  | mapped =>
      exact Sketch.ofPattern_map (Same.congruence dead) fun s hs =>
        h.relates hf ih (live_of_slot hf hn hs)

end Step

theorem matches_ofDepth (h : Revised f g dead c) (hf : f.WellFormed) (depth : Nat) :
    Matches f g dead c depth := by
  induction depth with
  | zero => exact ⟨fun _ => .refl dead _, fun _ => .refl dead _⟩
  | succ depth ih =>
      constructor
      · intro s hs
        rcases h.slot_cases hs with rfl | ⟨i, n, n', rfl, hc, hn, hn', hrevision⟩ |
          ⟨i, rfl, hi⟩
        · exact .refl dead _
        · rw [hc]
          simp only [Sketch.ofDepth, hn, hn']
          exact h.same_ofNode hf ih hn hrevision
        · exact hi.node _
      · intro names D s hs
        rcases h.slot_cases hs with rfl | ⟨i, n, n', rfl, hc, hn, hn', hrevision⟩ |
          ⟨i, rfl, hi⟩
        · exact .refl dead _
        · rw [hc]
          simp only [Sketch.ofDepth, hn, hn']
          exact h.same_ofPattern hf ih hn hrevision
        · exact hi.pattern ..

end Revised
end Untangle
