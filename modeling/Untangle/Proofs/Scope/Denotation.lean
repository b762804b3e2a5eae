import Untangle.Proofs.Scope.Carried
import Untangle.Proofs.Scope.Revision

/-!
# What names stand for

A name that is used stands for what it means in the innermost scope around it, any other name for
what it was declared as. A revised tree comes to the nodes that it keeps in the same way as
before, so that their names stand for the same declarations while the charts agree.
-/

namespace Untangle

open Forest
open Relation (ReflTransGen)

namespace Revision

variable {f g : Forest} {dead : Option NodeId} {c : NodeId → NodeId} {n n' : Node Slot}

theorem carries (h : Revision f g dead c n n') : n.Carries c n' := by
  have htext := Revised.identifierText?_of_revision h
  cases h with
  | mapped => exact Node.carries_map c n
  | expression _ _ =>
      exact ⟨fun p => by cases p <;> rfl, htext, .inr ⟨.of_value rfl rfl, .of_value rfl rfl⟩⟩
  | body _ _ _ =>
      exact ⟨fun p => by cases p <;> rfl, htext, .inr ⟨.of_value rfl rfl, .of_value rfl rfl⟩⟩
  | clause _ _ _ =>
      exact ⟨fun p => by cases p <;> rfl, htext, .inr ⟨.of_value rfl rfl, .of_value rfl rfl⟩⟩

theorem same (n : Node Slot) : Revision f g dead id n n := by
  have hmap : n.map (Option.map id) = n := by rw [Option.map_id, Node.map_id]
  have hmapped : Revision f g dead id n (n.map (Option.map id)) := .mapped n
  rwa [hmap] at hmapped

theorem same_or_expression (h : Revision f g none id n n') :
    n' = n ∨ ∃ s s', n = .operand .expressionStatement s ∧
      n' = .operand .expressionStatement s' ∧ ∀ depth,
        Outline.Same none ((Sketch.ofDepth f depth).node s) ((Sketch.ofDepth g depth).node s') := by
  cases h with
  | mapped => exact .inl (by rw [Option.map_id, Node.map_id])
  | expression _ h => exact .inr ⟨_, _, rfl, rfl, h⟩
  | body _ _ hd => cases hd
  | clause _ _ hd => cases hd

end Revision

/-!
## Trees that keep nodes
-/

/-- The tree of `g` is that of `f` with new nodes in the place of some old ones. Nodes that stay
have the parents they had. -/
structure Kept (f g : Forest) (root : NodeId) (dead : Option NodeId) (c : NodeId → NodeId) : Prop
    extends Revised f g dead c where
  fresh : ∀ {i}, c i ≠ i → f.size ≤ c i
  below : ∀ {i}, g.Within i root → i < f.size → i ≠ root → g.parent (some i) = f.parent (some i)

namespace Kept

variable {f g : Forest} {root i j : NodeId} {dead : Option NodeId} {c : NodeId → NodeId}
  (h : Kept f g root dead c)

include h

theorem carried : Carried f g root c := by
  refine ⟨fun {i n} hn => ?_, h.fresh, h.below⟩
  rcases h.node hn with ⟨n', hn', hrevision⟩
  exact ⟨n', hn', hrevision.carries⟩

theorem same_outline (hf : f.HasProgram root) :
    Outline.Same dead (Bindings.outline f root) (Bindings.outline g root) := by
  rcases hf.node with ⟨statements, hn⟩
  have hroot : c root = root := by
    by_contra hne
    rcases h.dead (h.moved hne).1 with ⟨_, _, _, _, _, hfunction⟩
    cases hn.symm.trans hfunction
  have hlive : Revised.Live f (some root) := by
    rintro i ⟨⟩
    exact lt_size_of_node? hn
  have hsame := (Revised.matches_ofDepth h.toRevised hf.wellFormed (Limits.treeDepth + 1)).node
    hlive
  rwa [Option.map_some, hroot] at hsame

end Kept

/-!
## Denotations
-/

namespace Bindings

variable {f g : Forest} {root i : NodeId} {r r' : Option NodeId}

/-- What the name at a node stands for, whether or not the tree can be bound as a whole. -/
inductive Denotes (f : Forest) (root i : NodeId) : Option NodeId → Prop
  | used {kind : ReferenceKind} {name : String} {x : NodeId} {r : Option NodeId}
      (h : Used f root kind name i) (hx : f.Inside (Opens f root) i x)
      (hr : (chart f root).Means name x r) : Denotes f root i r
  | declared (h : ∀ kind name, ¬ Used f root kind name i) :
      Denotes f root i ((chart f root).named i)

theorem denotes_declarationOf (hprogram : f.HasProgram root)
    (hwhole : (ofForest f (some root)).truncated = false) (i : NodeId) :
    Denotes f root i (declarationOf f root i) := by
  by_cases hused : ∃ kind name, Used f root kind name i
  · rcases hused with ⟨kind, name, hused⟩
    rcases declarationOf_of_used hprogram hwhole hused with ⟨x, hx, hmeans⟩
    exact .used hused hx hmeans
  · have hnot : ∀ kind name, ¬ Used f root kind name i := fun kind name h =>
      hused ⟨kind, name, h⟩
    rw [declarationOf_of_not_used hprogram hwhole hnot]
    exact .declared hnot

theorem Denotes.unique (h : Denotes f root i r) (h' : Denotes f root i r') : r = r' := by
  cases h with
  | used h hx hr =>
      cases h' with
      | used h' hx' hr' =>
          have hnode := h.node.symm.trans h'.node
          obtain rfl := (Node.name.inj (Option.some.inj hnode)).2
          obtain rfl := hx.unique hx'
          exact hr.unique hr'
      | declared h' => exact absurd h (h' _ _)
  | declared h =>
      cases h' with
      | used h' _ _ => exact absurd h' (h _ _)
      | declared _ => rfl

end Bindings

namespace Kept

open Bindings

variable {f g : Forest} {root i : NodeId} {c : NodeId → NodeId}

theorem chart_eq (h : Kept f g root none c) (hf : f.HasProgram root) :
    chart g root = chart f root :=
  ((h.same_outline hf).chart_eq root root root .empty).symm

theorem opens_iff (h : Kept f g root none c) (hf : f.HasProgram root) :
    Opens g root i ↔ Opens f root i := by
  rw [Opens, Opens, (h.same_outline hf).openers_eq]

theorem size_le (h : Kept f g root none c) : f.size ≤ g.size := by
  by_contra hlt
  obtain ⟨n', hn', _⟩ := h.node (node?_of_lt (Nat.not_le.mp hlt))
  exact Nat.lt_irrefl _ (lt_size_of_node? hn')

theorem refl (f : Forest) (root : NodeId) : Kept f f root none id :=
  ⟨⟨fun {_ n} hn => ⟨n, hn, .same n⟩, fun hne => absurd rfl hne, nofun⟩,
    fun hne => absurd rfl hne, fun _ _ _ => rfl⟩

/-- Expressions may be replaced one after another. -/
theorem trans {k : Forest} (h : Kept f g root none id) (h' : Kept g k root none id)
    (hf : f.WellFormed) (hg : g.WellFormed) : Kept f k root none id := by
  refine ⟨⟨?_, fun hne => absurd rfl hne, nofun⟩, fun hne => absurd rfl hne, ?_⟩
  · intro i n hn
    rcases h.node hn with ⟨n', hn', hrevision⟩
    rcases h'.node hn' with ⟨n'', hn'', hrevision'⟩
    refine ⟨n'', hn'', ?_⟩
    rcases hrevision.same_or_expression with rfl | ⟨s, s', rfl, rfl, hsame⟩
    · rcases hrevision'.same_or_expression with rfl | ⟨s, s', rfl, rfl, hsame'⟩
      · exact .same n''
      · refine .expression rfl fun depth => .trans ?_ (hsame' depth)
        have hlive := Revised.live_of_slot hf hn (List.mem_singleton_self s)
        have hmatch := (Revised.matches_ofDepth h.toRevised hf depth).node hlive
        rwa [Option.map_id_fun, id] at hmatch
    · rcases hrevision'.same_or_expression with rfl | ⟨s₁, s₂, heq, rfl, hsame'⟩
      · refine .expression rfl fun depth => (hsame depth).trans ?_
        have hlive := Revised.live_of_slot hg hn' (List.mem_singleton_self s')
        have hmatch := (Revised.matches_ofDepth h'.toRevised hg depth).node hlive
        rwa [Option.map_id_fun, id] at hmatch
      · obtain rfl := (Node.operand.inj heq).2
        exact .expression rfl fun depth => (hsame depth).trans (hsame' depth)
  · intro i hi hlt hne
    have hlt' := Nat.lt_of_lt_of_le hlt h.size_le
    exact (h'.below hi hlt' hne).trans (h.below (h'.carried.within hg hi hlt') hlt hne)

end Kept

namespace Bindings

variable {f g : Forest} {root i : NodeId} {r : Option NodeId}

/-- Where declarations are only moved around expressions that declare nothing, the names that stay
stand for what they stood for. -/
theorem Denotes.kept {c : NodeId → NodeId} (h : Denotes f root i r) (hkept : Kept f g root none c)
    (hf : f.HasProgram root) (hg : g.HasProgram root) (hi : g.Within i root)
    (hlt : i < f.size) : Denotes g root i r := by
  have hchart := hkept.chart_eq hf
  have hused : ∀ {kind name}, Used g root kind name i ↔ Used f root kind name i :=
    hkept.carried.used_iff hf.wellFormed hg.wellFormed hf.parent hg.parent hi hlt
  cases h with
  | used h hx hr =>
      refine .used (hused.mpr h) ?_ (hchart ▸ hr)
      exact hkept.carried.inside (fun _ _ => hkept.opens_iff hf) hf.wellFormed hi hlt hx
  | declared h =>
      rw [← hchart]
      exact .declared fun kind name h' => h kind name (hused.mp h')

end Bindings
end Untangle
