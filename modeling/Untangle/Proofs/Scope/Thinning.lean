import Untangle.Proofs.Scope.Congruence
import Untangle.Proofs.Scope.Placement
import Untangle.Proofs.Tree.Levels

/-!
# Thinner outlines

An expression declares nothing around it: whatever is declared in it belongs to a function or a
class of the expression. Where an expression is dropped, the outline loses the scopes of these, and
a chart of the rest knows what it knew of everything else.
-/

namespace Untangle

open Forest

namespace Outline

/-!
## Closed outlines
-/

/-- No `var` in the outline belongs to a scope around it. -/
def Local : Outline → Prop
  | done => True
  | declare _ _ _ _ _ rest => rest.Local
  | scope kind _ inside rest => (kind.isHoistingTarget = true ∨ inside.Local) ∧ rest.Local
  | vars _ _ => False
  | cut rest => rest.Local

/-- Nothing is declared except in scopes that the outline opens. -/
def Closed : Outline → Prop
  | done => True
  | declare _ _ _ _ _ _ => False
  | scope kind _ inside rest => (kind.isHoistingTarget = true ∨ inside.Local) ∧ rest.Closed
  | vars _ _ => False
  | cut rest => rest.Closed

variable {o o' p p' : Outline}

theorem Local.append (h : o.Local) (h' : p.Local) : (o ++ p).Local := by
  induction o with
  | done => exact h'
  | declare hoisted kind name nameNode declaration rest ih => exact ih h
  | scope kind node inside rest _ ih => exact ⟨h.1, ih h.2⟩
  | vars inside rest _ _ => exact h.elim
  | cut rest ih => exact ih h

theorem Closed.append (h : o.Closed) (h' : p.Closed) : (o ++ p).Closed := by
  induction o with
  | done => exact h'
  | declare hoisted kind name nameNode declaration rest _ => exact h.elim
  | scope kind node inside rest _ ih => exact ⟨h.1, ih h.2⟩
  | vars inside rest _ _ => exact h.elim
  | cut rest ih => exact ih h

theorem Closed.isLocal (h : o.Closed) : o.Local := by
  induction o with
  | done => trivial
  | declare hoisted kind name nameNode declaration rest _ => exact h.elim
  | scope kind node inside rest _ ih => exact ⟨h.1, ih h.2⟩
  | vars inside rest _ _ => exact h.elim
  | cut rest ih => exact ih h

theorem Closed.concat {α : Type} {items : List α} {o : α → Outline}
    (h : ∀ a ∈ items, (o a).Closed) : (Outline.concat (items.map o)).Closed := by
  induction items with
  | nil => trivial
  | cons a items ih =>
      rw [List.forall_mem_cons] at h
      exact h.1.append (ih h.2)

/-!
## Thinning
-/

/-- The second outline lacks closed parts of the first one, which mention dropped nodes only. -/
inductive Thins (gone : NodeId → Prop) : Outline → Outline → Prop
  | done : Thins gone done done
  | declare {hoisted : Bool} {kind : BindingKind} {name : String} {nameNode declaration : NodeId}
      {rest rest' : Outline} (h : Thins gone rest rest') :
      Thins gone (declare hoisted kind name nameNode declaration rest)
        (declare hoisted kind name nameNode declaration rest')
  | scope {kind : ScopeKind} {node : NodeId} {inside inside' rest rest' : Outline}
      (h : Thins gone inside inside') (h' : Thins gone rest rest') :
      Thins gone (scope kind node inside rest) (scope kind node inside' rest')
  | vars {inside inside' rest rest' : Outline} (h : Thins gone inside inside')
      (h' : Thins gone rest rest') : Thins gone (vars inside rest) (vars inside' rest')
  | cut {rest rest' : Outline} (h : Thins gone rest rest') : Thins gone (cut rest) (cut rest')
  | drop {o rest rest' : Outline} (hclosed : o.Closed)
      (hgone : ∀ part, ∀ w ∈ o.nodes part, gone w) (h : Thins gone rest rest') :
      Thins gone (o ++ rest) rest'

namespace Thins

variable {gone : NodeId → Prop} {w : NodeId}

theorem refl (o : Outline) : Thins gone o o := by
  induction o with
  | done => exact .done
  | declare hoisted kind name nameNode declaration rest ih => exact .declare ih
  | scope kind node inside rest ih ih' => exact .scope ih ih'
  | vars inside rest ih ih' => exact .vars ih ih'
  | cut rest ih => exact .cut ih

theorem append (h : Thins gone o o') (h' : Thins gone p p') : Thins gone (o ++ p) (o' ++ p') := by
  induction h with
  | done => exact h'
  | declare _ ih => exact .declare ih
  | scope h _ _ ih => exact .scope h ih
  | vars h _ _ ih => exact .vars h ih
  | cut _ ih => exact .cut ih
  | drop hclosed hgone _ ih =>
      rw [append_assoc]
      exact .drop hclosed hgone ih

theorem congruence (gone : NodeId → Prop) : Congruence (Thins gone) :=
  ⟨refl, append, fun h => .scope h .done, fun h => .vars h .done⟩

theorem dropped (hclosed : o.Closed) (hgone : ∀ part, ∀ w ∈ o.nodes part, gone w) :
    Thins gone o .done := by
  have h : Thins gone (o ++ .done) .done := .drop hclosed hgone .done
  rwa [append_done] at h

theorem whole (h : Thins gone o o') (hwhole : o.Whole) : o'.Whole := by
  induction h with
  | done => trivial
  | declare _ ih => exact ih hwhole
  | scope _ _ ih ih' => exact ⟨ih hwhole.1, ih' hwhole.2⟩
  | vars _ _ ih ih' => exact ⟨ih hwhole.1, ih' hwhole.2⟩
  | cut _ _ => exact hwhole.elim
  | drop _ _ _ ih => exact ih ((whole_append ..).mp hwhole).2

/-- A node that is not dropped is mentioned as before. -/
theorem mem_nodes_iff {part : Part} (h : Thins gone o o') (hw : ¬ gone w) :
    w ∈ o'.nodes part ↔ w ∈ o.nodes part := by
  induction h with
  | done => rfl
  | declare _ ih => simp only [nodes, List.mem_append, ih]
  | scope _ _ ih ih' => simp only [nodes, List.mem_append, ih, ih']
  | vars _ _ ih ih' => simp only [nodes, List.mem_append, ih, ih']
  | cut _ ih => exact ih
  | drop _ hgone _ ih =>
      rw [nodes_append, List.mem_append, ih]
      exact (or_iff_right fun hmem => hw (hgone part w hmem)).symm

end Thins
end Outline

/-!
## Charts of thinner outlines
-/

/-- The charts know the same of every node that is not dropped. -/
structure Chart.Agree (gone : NodeId → Prop) (c c' : Chart) : Prop where
  around : ∀ {w}, ¬ gone w → c'.around w = c.around w
  table : ∀ {w}, ¬ gone w → ∀ name, c'.table w name = c.table w name
  named : ∀ {i}, ¬ gone i → c'.named i = c.named i

namespace Chart.Agree

variable {gone : NodeId → Prop} {c c' : Chart} {o o' : Outline} {x y z : NodeId}
  {kind : BindingKind} {name : String} {nameNode declaration : NodeId}

theorem refl (gone : NodeId → Prop) (c : Chart) : c.Agree gone c :=
  ⟨fun _ => rfl, fun _ _ => rfl, fun _ => rfl⟩

theorem declare (h : c.Agree gone c') (hx : ¬ gone x) :
    (c.declare x kind name nameNode declaration).Agree gone
      (c'.declare x kind name nameNode declaration) := by
  refine ⟨h.around, fun {w} hw text => ?_, fun {i} hi => ?_⟩
  · change (if w = x ∧ text = name then _ else _) = if w = x ∧ text = name then _ else _
    rw [h.table hx, h.table hw]
  · change (if i = nameNode then _ else _) = if i = nameNode then _ else _
    rw [h.table hx, h.named hi]

theorem enter (h : c.Agree gone c') (x y : NodeId) : (c.enter x y).Agree gone (c'.enter x y) := by
  refine ⟨fun {w} hw => ?_, h.table, h.named⟩
  change (if w = x then _ else _) = if w = x then _ else _
  rw [h.around hw]

/-- What is declared in a dropped scope does not show. -/
theorem declare_gone (h : c.Agree gone c') (hx : gone x) (hname : gone nameNode) :
    (c.declare x kind name nameNode declaration).Agree gone c' := by
  refine ⟨h.around, fun {w} hw text => ?_, fun {i} hi => ?_⟩
  · refine (h.table hw text).trans (if_neg ?_).symm
    rintro ⟨rfl, _⟩
    exact hw hx
  · refine (h.named hi).trans (if_neg ?_).symm
    rintro rfl
    exact hi hname

theorem enter_gone (h : c.Agree gone c') (hx : gone x) (y : NodeId) :
    (c.enter x y).Agree gone c' := by
  refine ⟨fun {w} hw => (h.around hw).trans (if_neg ?_).symm, h.table, h.named⟩
  rintro rfl
  exact hw hx

/-- In a dropped scope everything is dropped, unless a `var` leaves the scope. -/
theorem inside (h : c.Agree gone c') (hx : gone x) (hy : gone y) (hz : gone z ∨ o.Local)
    (hgone : ∀ part, ∀ w ∈ o.nodes part, gone w) : (o.chart x y z c).Agree gone c' := by
  induction o generalizing x y z c with
  | done => exact h
  | declare hoisted kind name nameNode declaration rest ih =>
      have hscope : gone (if hoisted then y else x) := by
        split
        · exact hy
        · exact hx
      refine ih (h.declare_gone hscope (hgone .names nameNode List.mem_cons_self)) hx hy hz ?_
      exact fun part w hw => hgone part w (List.mem_append_right _ hw)
  | scope kind node inside rest ih ih' =>
      have hnode : gone node := hgone .openers node List.mem_cons_self
      have htarget : gone (if kind.isHoistingTarget then node else z) ∨ inside.Local := by
        split
        · exact .inl hnode
        · exact hz.imp_right fun hlocal => hlocal.1.resolve_left ‹_›
      refine ih' (ih (h.enter_gone hnode x) hnode hnode htarget ?_) hx hy
        (hz.imp_right And.right) ?_
      · exact fun part w hw => hgone part w (List.mem_append_right _ (List.mem_append_left _ hw))
      · exact fun part w hw => hgone part w (List.mem_append_right _ (List.mem_append_right _ hw))
  | vars inside rest ih ih' =>
      have hz' : gone z := hz.resolve_right id
      refine ih' (ih h hx hz' (.inl hz') ?_) hx hy (.inl hz') ?_
      · exact fun part w hw => hgone part w (List.mem_append_left _ hw)
      · exact fun part w hw => hgone part w (List.mem_append_right _ hw)
  | cut rest ih => exact ih h hx hy hz hgone

theorem closed (h : c.Agree gone c') (hclosed : o.Closed)
    (hgone : ∀ part, ∀ w ∈ o.nodes part, gone w) : (o.chart x y z c).Agree gone c' := by
  induction o generalizing c with
  | done => exact h
  | declare hoisted kind name nameNode declaration rest _ => exact hclosed.elim
  | scope kind node inside rest _ ih =>
      have hnode : gone node := hgone .openers node List.mem_cons_self
      have htarget : gone (if kind.isHoistingTarget then node else z) ∨ inside.Local := by
        split
        · exact .inl hnode
        · exact .inr (hclosed.1.resolve_left ‹_›)
      refine ih ((h.enter_gone hnode x).inside hnode hnode htarget ?_) hclosed.2 ?_
      · exact fun part w hw => hgone part w (List.mem_append_right _ (List.mem_append_left _ hw))
      · exact fun part w hw => hgone part w (List.mem_append_right _ (List.mem_append_right _ hw))
  | vars inside rest _ _ => exact hclosed.elim
  | cut rest ih => exact ih h hclosed hgone

/-- Charting an outline and charting a thinner one. -/
theorem chart (h : c.Agree gone c') (hthins : Outline.Thins gone o o')
    (hlive : ∀ w ∈ o'.nodes .openers, ¬ gone w) (hx : ¬ gone x) (hy : ¬ gone y)
    (hz : ¬ gone z) : (o.chart x y z c).Agree gone (o'.chart x y z c') := by
  induction hthins generalizing x y z c c' with
  | done => exact h
  | declare _ ih =>
      refine ih (h.declare ?_) hlive hx hy hz
      split
      · exact hy
      · exact hx
  | @scope kind node _ _ _ _ _ _ ih ih' =>
      have hnode : ¬ gone node := hlive node List.mem_cons_self
      have htarget : ¬ gone (if kind.isHoistingTarget then node else z) := by
        split
        · exact hnode
        · exact hz
      refine ih' (ih (h.enter node x) ?_ hnode hnode htarget) ?_ hx hy hz
      · exact fun w hw => hlive w (List.mem_append_right _ (List.mem_append_left _ hw))
      · exact fun w hw => hlive w (List.mem_append_right _ (List.mem_append_right _ hw))
  | vars _ _ ih ih' =>
      refine ih' (ih h ?_ hx hz hz) ?_ hx hy hz
      · exact fun w hw => hlive w (List.mem_append_left _ hw)
      · exact fun w hw => hlive w (List.mem_append_right _ hw)
  | cut _ ih => exact ih h hlive hx hy hz
  | @drop o _ _ hclosed hgone _ ih =>
      rw [Outline.chart_append]
      exact ih (h.closed hclosed hgone) hlive hx hy hz

/-- What a name means in a scope that is not dropped, provided that no scope around it is. -/
theorem means {r : Option NodeId} (h : c.Agree gone c')
    (hout : ∀ {x y}, ¬ gone x → c.around x = some y → ¬ gone y) (hx : ¬ gone x)
    (hmeans : c.Means name x r) : c'.Means name x r := by
  induction hmeans with
  | here he => exact .here ((h.table hx _).trans he)
  | outward he hy _ ih =>
      exact .outward ((h.table hx _).trans he) ((h.around hx).trans hy) (ih (hout hx hy))
  | nowhere he hx' => exact .nowhere ((h.table hx _).trans he) ((h.around hx).trans hx')

end Chart.Agree

/-!
## Expressions
-/

namespace Sketch

variable {f : Forest} {i : NodeId} {n : Node Slot} {tier : Tier}

open Outline (Closed Local Thins)

theorem local_nameOf {kind : BindingKind} {s : Slot} {declaration : NodeId} :
    (nameOf f kind s declaration).Local := by
  unfold nameOf
  split <;> trivial

/-- An expression, or a member of a class, declares nothing around it. -/
theorem closed_node (hf : f.Tiered) (hi : f.Stands tier i) (depth : Nat) :
    ((ofDepth f depth).node (some i)).Closed := by
  induction depth generalizing tier i with
  | zero => trivial
  | succ depth ih =>
      obtain ⟨n, hn, hlevel⟩ : ∃ n, f.node? (some i) = some n ∧ n.isMemberLevel = true := by
        cases tier with
        | member => exact hi
        | expression =>
            rcases hi with ⟨n, hn, hlevel⟩
            exact ⟨n, hn, Node.isMemberLevel_of_not_isStatementLevel hlevel⟩
      have hfunction : ∀ inside, (Outline.scope .function i inside .done).Closed :=
        fun _ => ⟨.inl rfl, trivial⟩
      have hchildren : n.surroundsStatements = false → ((ofDepth f depth).children n).Closed :=
        fun hsurrounds => .concat fun c hc =>
          ih (show f.Stands .expression c from hf.layered hn hsurrounds hc)
      have hmembers : n.isClass = true → ((ofDepth f depth).children n).Closed :=
        fun hclass => .concat fun c hc => ih (hf.members hn hclass hc)
      rw [ofDepth_node hn]
      cases n with
      | function form ident parameters code isAsync isGenerator =>
          cases form with
          | declaration => cases hlevel
          | expression | arrow => exact hfunction _
      | classLike form ident heritage members =>
          cases form with
          | declaration => cases hlevel
          | expression => exact ⟨.inr (local_nameOf.append (hmembers rfl).isLocal), trivial⟩
      | body form statements =>
          cases form with
          | program | block => cases hlevel
          | staticBlock => exact hfunction _
      | variableStatement _ _ | forLoop _ _ _ _ | iteration _ _ _ _ _ | switch _ _
      | catchClause _ _ | conditionalStatement _ _ _ | tryStatement _ _ _ | caseClause _ _
      | labeled _ _ => cases hlevel
      | guarded form condition statement => cases form <;> cases hlevel
      | _ => exact hchildren rfl

theorem thins_node {gone : NodeId → Prop} (hf : f.WellFormed) (htiered : f.Tiered)
    (hi : f.Inner i) (hgone : ∀ {w}, f.Within w i → gone w) (depth : Nat) :
    Thins gone ((ofDepth f depth).node (some i)) .done := by
  have hstands : f.Stands .expression i := hi
  refine .dropped (closed_node htiered hstands depth) fun part w hw => ?_
  rcases ((places_ofDepth hf part depth).node (some i)).within w hw with h | ⟨r, hr, hpath⟩
  · cases h
  · obtain rfl := Option.some.inj (List.mem_singleton.mp hr)
    exact hgone hpath

end Sketch
end Untangle
