import Untangle.Proofs.Scope.Denotation
import Untangle.Proofs.Tree.Levels
import Untangle.Rewrite.Shape

/-!
# References in plain expressions

An expression without functions and classes in it opens no scope and declares no name. Whatever is
put in its place, the declarations around it stay as they are.

The names that a walk comes to inside an expression stand in the places of references, and a name
there that is bound to something is one that the walk uses.
-/

namespace Untangle

open Forest
open Relation (ReflTransGen)

/-- Neither a statement nor a node that may have statements below it. -/
def Node.isPlain {α : Type} (n : Node α) : Bool :=
  !n.isStatementLevel && !n.surroundsStatements

theorem Node.isPlain_map {α β : Type} (σ : α → β) (n : Node α) :
    (n.map σ).isPlain = n.isPlain := by
  cases n with
  | guarded form _ _ | bare form | function form _ _ _ _ _ | classLike form _ _ _
  | operand form _ => cases form <;> rfl
  | _ => rfl

namespace Forest

variable {f g : Forest} {root e i w : NodeId} {n : Node Slot}

/-- Every node below the given one is plain. -/
def Plain (f : Forest) (e : NodeId) : Prop :=
  ∀ k, f.Within k e → ∃ n, f.node? (some k) = some n ∧ n.isPlain = true

theorem Plain.below (h : f.Plain e) (hi : f.Within i e) : f.Plain i :=
  fun k hk => h k (hk.trans hi)

theorem plain_of_leaf (hf : f.WellFormed) (hn : f.node? (some e) = some n)
    (hplain : n.isPlain = true) (hslots : n.slots = []) : f.Plain e := by
  intro k hk
  rcases within_iff.mp hk with rfl | ⟨c, hlink, _⟩
  · exact ⟨n, hn, hplain⟩
  · have hmem := hf.linked.mp hlink
    rw [children_of_node? hn, childrenOf, hslots] at hmem
    cases hmem

end Forest

/-!
## Outlines
-/

namespace Sketch

variable {f : Forest} {e : NodeId} {n : Node Slot}

theorem ofNode_of_plain (k : Sketch) (i : NodeId) (h : n.isPlain = true) :
    k.ofNode f i n = k.children n := by
  cases n with
  | body form statements => cases form <;> cases h
  | function _ _ _ _ _ _ | variableStatement _ _ | classLike _ _ _ _ | forLoop _ _ _ _
  | iteration _ _ _ _ _ | switch _ _ | catchClause _ _ => simp [Node.isPlain,
      Node.surroundsStatements] at h
  | _ => rfl

/-- The outline of a plain expression is empty. -/
theorem same_of_plain (hf : f.WellFormed) (h : f.Plain e) (depth : Nat) :
    Outline.Same none ((ofDepth f depth).node (some e)) .done := by
  induction depth generalizing e with
  | zero => exact ⟨rfl, fun hdead => absurd rfl hdead⟩
  | succ depth ih =>
      rcases h e .refl with ⟨n, hn, hplain⟩
      rw [ofDepth_node hn, ofNode_of_plain _ e hplain]
      have hall : ∀ c ∈ childrenOf n,
          Outline.Same none ((ofDepth f depth).node (some c)) .done := by
        intro c hc
        have hlink : f.Link c e := hf.linked.mpr (by rwa [children_of_node? hn])
        exact ih (h.below (.single hlink))
      have hconcat : ∀ items : List NodeId,
          Outline.Same none (Outline.concat (items.map fun _ => .done)) .done := by
        intro items
        induction items with
        | nil => exact .refl none _
        | cons _ _ ih => exact ih
      exact ((Outline.Same.congruence none).concat hall).trans (hconcat _)

end Sketch

/-!
## Declared names
-/

namespace Forest

variable {f : Forest} {root e i w X : NodeId} {n : Node Slot}

theorem binds_owner (h : .toTarget none (some w) ∈ n.valueErrands) : n.isPlain = false := by
  have hvalue : ∀ {computed : Bool} {key value : Slot},
      .toTarget none (some w) ∉ Errand.toValueIf computed key ++ [.toValue value] := by
    intro computed key value
    cases computed <;> simp [Errand.toValueIf, Errand.toTarget, Errand.toValue]
  have hchildren : .toTarget none (some w) ∉
      (childrenOf n).map fun i => Errand.toValue (some i) := by
    simp [Errand.toTarget, Errand.toValue]
  cases n with
  | declarator _ _ | function _ _ _ _ _ _ | catchClause _ _ => simp [Node.isPlain,
      Node.isStatementLevel, Node.surroundsStatements]
  | property _ _ _ _ | method _ _ _ _ _ | field _ _ _ _ => exact absurd h hvalue
  | classLike _ _ _ _ => simp [Node.isPlain, Node.surroundsStatements]
  | guarded form _ _ => simp [Node.isPlain, Node.surroundsStatements]
  | call form _ _ _ _ =>
      cases form with
      | construct => exact absurd h hchildren
      | call => simp [Node.valueErrands, Errand.toTarget, Errand.toValue] at h
  | access form _ _ _ _ =>
      cases form with
      | element => exact absurd h hchildren
      | property => simp [Node.valueErrands, Errand.toTarget, Errand.toValue] at h
  | binary form _ _ _ =>
      cases form with
      | assignment => simp [Node.valueErrands, Errand.toTarget, Errand.toValue] at h
      | _ => exact absurd h hchildren
  | unary _ _ _ | labeled _ _ | jump _ _ | iteration _ _ _ _ _ =>
      simp [Node.valueErrands, Errand.toTarget, Errand.toValue] at h
  | _ => exact absurd h hchildren

section Expression

variable (hf : f.WellFormed) (hplain : f.Plain e) (hlink : f.Link e X)
  (hX : f.node? (some X) = some (.operand .expressionStatement (some e)))

include hf hplain hlink hX

omit hf in
/-- The parent of a node in the expression is plain, or else it is the statement. -/
theorem parent_plain_or (hw : f.Within w e) (hi : f.Link w i)
    (hn : f.node? (some i) = some n) :
    n.isPlain = true ∧ f.Within i e ∨ n = .operand .expressionStatement (some e) := by
  rcases ReflTransGen.cases_head hw with rfl | ⟨b, hb, hpath⟩
  · obtain rfl := Link.unique hi hlink
    exact .inr (Option.some.inj (hn.symm.trans hX))
  · obtain rfl := Link.unique hi hb
    rcases hplain _ hpath with ⟨m, hm, hmplain⟩
    obtain rfl := Option.some.inj (hn.symm.trans hm)
    exact .inl ⟨hmplain, hpath⟩

theorem not_binds_of_plain (hw : f.Within w e) : ¬ f.Binds w := by
  intro hbinds
  induction hbinds with
  | @pattern w p n hn hi =>
      have hlink' := hf.link_of_errand (p := .value .read) hn hi rfl
      rcases parent_plain_or hplain hlink hX hw hlink' hn with ⟨hnplain, _⟩ | rfl
      · cases hnplain.symm.trans (binds_owner hi)
      · simp [Node.valueErrands, Errand.toTarget, Errand.toValue] at hi
  | @deeper w p n _ hn hagain hi ih =>
      have hlink' := hf.link_of_errand (p := .target none) hn hi rfl
      rcases parent_plain_or hplain hlink hX hw hlink' hn with ⟨_, hp⟩ | rfl
      · exact ih hp
      · cases hagain

/-- Nothing in a plain expression is declared. -/
theorem not_declares_of_plain (hw : f.Within w e) : ¬ f.Declares w := by
  rintro (hbinds | ⟨p, n, hn, hown⟩)
  · exact not_binds_of_plain hf hplain hlink hX hw hbinds
  · have hlink' := hf.link_of_ownName hn hown
    rcases parent_plain_or hplain hlink hX hw hlink' hn with ⟨hnplain, _⟩ | rfl
    · cases n with
      | function _ _ _ _ _ _ | classLike _ _ _ _ =>
          simp [Node.isPlain, Node.surroundsStatements] at hnplain
      | _ => cases hown
    · cases hown

omit hf hplain hlink in
/-- The walk goes on from a statement to its expression. -/
theorem reached_expression {kind : ReferenceKind} (h : Reached f root (.value kind, X)) :
    Reached f root (.value .read, e) :=
  .tail h (.child (e := .toValue (some e)) hX rfl (List.mem_singleton_self _) rfl)

/-- The walk enters the expression of a statement from the statement. -/
theorem reached_through (hroot : f.parent (some root) = none) {x : Position}
    (hreached : Reached f root x) (hx : f.Within x.2 e) :
    (∃ kind, Reached f root (.value kind, X)) ∧
      ReflTransGen (Next f) (.value .read, e) x := by
  induction hreached with
  | refl =>
      exfalso
      rcases ReflTransGen.cases_head hx with heq | ⟨b, hb, _⟩
      · cases hroot.symm.trans (heq ▸ hlink)
      · cases hroot.symm.trans hb
  | tail hpath hnext ih =>
      cases hnext with
      | @again i n p q hn hq =>
          rcases ih hx with ⟨hentry, hinside⟩
          exact ⟨hentry, hinside.tail (.again hn hq)⟩
      | @child i c n p a hn hagain ha hc =>
          have hlink' := hf.link_of_errand hn ha hc
          rcases parent_plain_or hplain hlink hX hx hlink' hn with ⟨_, hi⟩ | rfl
          · rcases ih hi with ⟨hentry, hinside⟩
            exact ⟨hentry, hinside.tail (.child hn hagain ha hc)⟩
          · cases p with
            | target kind => cases hagain
            | value kind =>
                obtain rfl := List.mem_singleton.mp ha
                obtain rfl := Option.some.inj hc
                obtain rfl := Link.unique hlink' hlink
                exact ⟨⟨kind, hpath⟩, .refl⟩

end Expression

end Forest

namespace Bindings

variable {f : Forest} {root w : NodeId}

/-- A node that is neither used nor declared stands for nothing. -/
theorem declarationOf_eq_none (hprogram : f.HasProgram root)
    (hwhole : (ofForest f (some root)).truncated = false) (hdecl : ¬ f.Declares w)
    (hused : ∀ kind name, ¬ Used f root kind name w) : declarationOf f root w = none := by
  have hnames : w ∉ (outline f root).names := fun hmem =>
    hdecl (((Sketch.entitled_ofDepth f _).node (some root)).declares w hmem)
  rw [declarationOf_of_not_used hprogram hwhole hused]
  exact Outline.named_chart hnames

end Bindings
end Untangle

namespace Untangle

open Forest
open Relation (ReflTransGen)

namespace Forest

variable {f : Forest} {root e i w X : NodeId} {n : Node Slot} {p : Purpose} {text : String}

/-!
## Places of references
-/

/-- A key that is not computed is not the value of its property. -/
theorem slot_ne_of_nodup {key value : Slot} {rest : List Slot}
    (h : ((key :: value :: rest).filterMap id).Nodup) (hw : value = some w) : key ≠ some w := by
  rintro rfl
  subst hw
  simp at h

theorem reference_of_computed {computed : Bool} {key value : Slot} {rest : List Slot}
    {errand a : Errand} (hnodup : ((key :: value :: rest).filterMap id).Nodup)
    (ha : a ∈ Errand.toValueIf computed key ++ [errand]) (herrand : errand.slot = value)
    (hw : a.slot = some w) : (computed || key != some w) = true := by
  cases computed with
  | true => rfl
  | false =>
      obtain rfl := List.mem_singleton.mp ha
      simpa using slot_ne_of_nodup hnodup (herrand.symm.trans hw)

/-- The walk goes on from a plain node to places of references only. -/
theorem isReference_of_errand (hf : f.WellFormed) (hn : f.node? (some i) = some n)
    (hplain : n.isPlain = true) {a : Errand} (ha : a ∈ n.errands p) (hw : a.slot = some w) :
    f.isReference (some w) = true := by
  have hparent : f.parent (some w) = some i := hf.link_of_errand hn ha hw
  have hnodup := hf.nodup i
  rw [children_of_node? hn, childrenOf] at hnodup
  rw [isReference, hparent, hn]
  cases n with
  | property form key value computed =>
      cases p with
      | value kind => exact reference_of_computed hnodup ha rfl hw
      | target kind => exact reference_of_computed hnodup ha rfl hw
  | method form key value computed isStatic =>
      cases p with
      | value kind => exact reference_of_computed hnodup ha rfl hw
      | target kind => cases ha
  | field key value computed isStatic =>
      cases p with
      | value kind => exact reference_of_computed hnodup ha rfl hw
      | target kind => cases ha
  | access form object key isOptional inChain =>
      cases form with
      | element => rfl
      | property =>
          cases p with
          | target kind => cases ha
          | value kind =>
              obtain rfl := List.mem_singleton.mp ha
              have hne : key ≠ some w := by
                rintro rfl
                simp only [Node.slots, show object = some w from hw] at hnodup
                simp at hnodup
              simpa using hne
  | labeled _ _ | jump _ _ | declarator _ _ | function _ _ _ _ _ _ | catchClause _ _
  | classLike _ _ _ _ => simp [Node.isPlain, Node.isStatementLevel, Node.surroundsStatements]
      at hplain
  | _ => rfl

theorem within_of_path {x y : Position} (hf : f.WellFormed) (h : ReflTransGen (Next f) x y) :
    f.Within y.2 x.2 := by
  induction h with
  | refl => exact .refl
  | tail _ hnext ih =>
      cases hnext with
      | again _ _ => exact ih
      | child hn _ ha hc => exact .head (hf.link_of_errand hn ha hc) ih

/-- A name that the walk comes to in the expression of a statement is a reference. -/
theorem isReference_of_path (hf : f.WellFormed) (hplain : f.Plain e) (hlink : f.Link e X)
    (hX : f.node? (some X) = some (.operand .expressionStatement (some e)))
    (hpath : ReflTransGen (Next f) (.value .read, e) (p, w))
    (hw : f.node? (some w) = some (.name .identifier text)) : f.isReference (some w) = true := by
  rcases ReflTransGen.cases_tail hpath with heq | ⟨y, hbefore, hnext⟩
  · obtain ⟨_, rfl⟩ := Prod.mk.inj heq
    have hparent : f.parent (some w) = some X := hlink
    rw [isReference, hparent, hX]
  · cases hnext with
    | @again _ n p _ hn hq =>
        obtain rfl := Option.some.inj (hw.symm.trans hn)
        cases p <;> cases hq
    | @child i _ n _ a hn _ ha hc =>
        rcases hplain i (within_of_path hf hbefore) with ⟨m, hm, hmplain⟩
        obtain rfl := Option.some.inj (hn.symm.trans hm)
        exact isReference_of_errand hf hn hmplain ha hc

end Forest

/-!
## Bound names
-/

theorem Used.within {f : Forest} {root i : NodeId} {kind : ReferenceKind} {name : String}
    (h : Used f root kind name i) (hf : f.WellFormed) : f.Within i root := by
  rcases h.reached with ⟨p, hreached, _⟩
  exact within_of_path hf hreached

namespace Bindings

variable {f : Forest} {root w : NodeId}

/-- A name that is bound and not declared is used. -/
theorem used_of_resolved (hwhole : (ofForest f (some root)).truncated = false)
    (hdecl : ¬ f.Declares w) (h : (ofForest f (some root)).resolve (some w) ≠ none) :
    ∃ kind name, Used f root kind name w := by
  by_contra hnot
  have hunused : ∀ kind name, ¬ Used f root kind name w := fun kind name hused =>
    hnot ⟨kind, name, hused⟩
  apply h
  rw [resolve, Option.bind_some, resolved_of_not_used hwhole hunused,
    resolved_of_not_declares hdecl]

end Bindings
end Untangle
