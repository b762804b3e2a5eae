import Untangle.Proofs.Scope.Meaning
import Untangle.Proofs.Scope.Revision

/-!
# Charts without a function

When a function declaration is taken out of a tree, the chart loses its scopes and the entry of
its name. Names that did not mean the function keep their meaning, provided that its name is not
declared a second time in the same scope.
-/

namespace Untangle

open Forest Bindings

variable {f : Forest} {d : NodeId} {c c' : Chart} {o : Outline} {x y z i : NodeId}

/-!
## Entries of one declaration
-/

namespace Chart

/-- The entries that stand for the node are those of a function. -/
def Functions (d : NodeId) (c : Chart) : Prop :=
  ∀ ⦃x name e⦄, c.table x name = some e → e.declaration = d → e.kind = .function

/-- No scope declares the name of the node a second time. -/
def Single (d : NodeId) (c : Chart) : Prop :=
  ∀ ⦃x name e⦄, c.table x name = some e → e.declaration = d → e.redeclared = false

theorem table_declare {kind : BindingKind} {name : String} {nameNode declaration : NodeId}
    (w : NodeId) (text : String) :
    (c.declare x kind name nameNode declaration).table w text =
      if w = x ∧ text = name then some (Entry.declare (c.table x name) kind declaration)
      else c.table w text :=
  rfl

/-- A known entry is declared once more, or the declaration gets an entry of its own. -/
theorem declare_cases (known : Option Entry) (kind : BindingKind) (declaration : NodeId) :
    (∃ e, known = some e ∧ e.reusedFor kind = true ∧
      Entry.declare known kind declaration = { e with redeclared := true }) ∨
    (∀ e, known = some e → e.reusedFor kind = false) ∧
      Entry.declare known kind declaration = ⟨declaration, kind, false⟩ := by
  cases known with
  | none => exact Or.inr ⟨nofun, rfl⟩
  | some e =>
      cases he : e.reusedFor kind with
      | true => exact Or.inl ⟨e, rfl, he, by simp [Entry.declare, he]⟩
      | false =>
          refine Or.inr ⟨?_, by simp [Entry.declare, he]⟩
          rintro _ ⟨⟩
          exact he

theorem reusedFor_of_function {e : Entry} (h : e.kind = .function) (kind : BindingKind) :
    e.reusedFor kind = true := by
  simp [Entry.reusedFor, h]

variable {kind : BindingKind} {name : String} {nameNode declaration : NodeId}

theorem Functions.declare (h : c.Functions d) (hkind : declaration = d → kind = .function) :
    (c.declare x kind name nameNode declaration).Functions d := by
  intro w text e he hdecl
  rw [table_declare] at he
  split at he
  · obtain rfl := Option.some.inj he
    rcases declare_cases (c.table x name) kind declaration with ⟨e, hknown, _, hentry⟩ |
      ⟨_, hentry⟩
    · rw [hentry] at hdecl ⊢
      exact @h x name e hknown hdecl
    · rw [hentry] at hdecl ⊢
      exact hkind hdecl
  · exact h he hdecl

/-- Once redeclared, always redeclared. -/
theorem single_of_declare (hc : c.Functions d)
    (h : (c.declare x kind name nameNode declaration).Single d) : c.Single d := by
  intro w text e he hdecl
  cases hredeclared : e.redeclared with
  | false => rfl
  | true =>
      by_cases hkey : w = x ∧ text = name
      · obtain ⟨rfl, rfl⟩ := hkey
        have hreused := reusedFor_of_function (hc he hdecl) kind
        have hentry : (c.declare w kind text nameNode declaration).table w text =
            some { e with redeclared := true } := by
          rw [table_declare, if_pos ⟨rfl, rfl⟩, he]
          simp [Entry.declare, hreused]
        cases h hentry hdecl
      · have hentry : (c.declare x kind name nameNode declaration).table w text = some e := by
          rw [table_declare, if_neg hkey]
          exact he
        cases hredeclared.symm.trans (h hentry hdecl)

end Chart

namespace Outline

theorem functions_chart (hnested : o.Nested f) {ident : Slot} (hd : f.DeclaresFunction d ident)
    (hc : c.Functions d) : (o.chart x y z c).Functions d := by
  induction o generalizing x y z c with
  | done => exact hc
  | declare hoisted kind name nameNode declaration rest ih =>
      apply ih hnested.2.2
      apply hc.declare
      rintro rfl
      exact (hnested.2.1 ident hd).2
  | scope kind node inside rest ih ih' => exact ih' hnested.2.2 (ih hnested.2.1 hc)
  | vars inside rest ih ih' => exact ih' hnested.2 (ih hnested.1 hc)
  | cut rest ih => exact ih hnested hc

theorem single_of_chart (hnested : o.Nested f) {ident : Slot} (hd : f.DeclaresFunction d ident)
    (hc : c.Functions d) (h : (o.chart x y z c).Single d) : c.Single d := by
  induction o generalizing x y z c with
  | done => exact h
  | declare hoisted kind name nameNode declaration rest ih =>
      have hkind : declaration = d → kind = .function := by
        rintro rfl
        exact (hnested.2.1 ident hd).2
      exact Chart.single_of_declare hc (ih hnested.2.2 (hc.declare hkind) h)
  | scope kind node inside rest ih ih' =>
      have hentered : (c.enter node x).Functions d := hc
      have hinside := functions_chart (x := node) (y := node)
        (z := if kind.isHoistingTarget then node else z) hnested.2.1 hd hentered
      have hfirst : (c.enter node x).Single d :=
        ih hnested.2.1 hentered (ih' hnested.2.2 hinside h)
      exact hfirst
  | vars inside rest ih ih' =>
      exact ih hnested.1 hc (ih' hnested.2 (functions_chart hnested.1 hd hc) h)
  | cut rest ih => exact ih hnested hc h

end Outline

/-!
## Charts apart from a subtree
-/

/-- The second chart knows what the first one knows of everything outside the subtree of a node,
apart from what the node declares. -/
structure Chart.Without (f : Forest) (d : NodeId) (c c' : Chart) : Prop where
  around : ∀ {x}, ¬ f.Within x d → c'.around x = c.around x
  outside : ∀ {x y}, ¬ f.Within x d → c.around x = some y → ¬ f.Within y d
  table : ∀ {x}, ¬ f.Within x d → ∀ name,
    c'.table x name = (c.table x name).filter fun e => e.declaration != d
  named : ∀ {i}, ¬ f.Within i d → c'.named i = c.named i

namespace Chart.Without

variable {kind : BindingKind} {name : String} {nameNode declaration : NodeId}

/-- A name that did not mean the node keeps its meaning. -/
theorem means (h : c.Without f d c') {r : Option NodeId} (hx : ¬ f.Within x d)
    (hmeans : c.Means name x r) (hr : r ≠ some d) : c'.Means name x r := by
  induction hmeans with
  | here he =>
      apply Means.here
      rw [h.table hx, he]
      exact if_pos (by simpa using fun heq => hr (congrArg some heq))
  | outward hnone hy _ ih =>
      refine .outward ?_ ((h.around hx).trans hy) (ih (h.outside hx hy) hr)
      rw [h.table hx, hnone]
      rfl
  | nowhere hnone hx' =>
      refine .nowhere ?_ ((h.around hx).trans hx')
      rw [h.table hx, hnone]
      rfl

/-- Both charts get the same declaration. -/
theorem declare (h : c.Without f d c') (hc : c.Functions d)
    (hsingle : (c.declare x kind name nameNode declaration).Single d) (hx : ¬ f.Within x d)
    (hdecl : declaration ≠ d) :
    (c.declare x kind name nameNode declaration).Without f d
      (c'.declare x kind name nameNode declaration) := by
  -- What is known of the name does not belong to the node, since it would be redeclared.
  have hknown : ∀ e, c.table x name = some e → e.declaration ≠ d := by
    intro e he heq
    have hentry : (c.declare x kind name nameNode declaration).table x name =
        some { e with redeclared := true } := by
      rw [table_declare, if_pos ⟨rfl, rfl⟩, he]
      simp [Entry.declare, reusedFor_of_function (hc he heq)]
    cases hsingle hentry heq
  have hsame : c'.table x name = c.table x name := by
    rw [h.table hx]
    cases he : c.table x name with
    | none => rfl
    | some e => exact if_pos (by simpa using hknown e he)
  have hentry : (Entry.declare (c.table x name) kind declaration).declaration ≠ d := by
    rcases declare_cases (c.table x name) kind declaration with ⟨e, he, _, hentry⟩ | ⟨_, hentry⟩
    · rw [hentry]
      exact hknown e he
    · rw [hentry]
      exact hdecl
  refine ⟨h.around, h.outside, ?_, ?_⟩
  · intro w hw text
    rw [table_declare, table_declare, hsame]
    split
    · exact (if_pos (by simpa using hentry)).symm
    · exact h.table hw text
  · intro i hi
    change (if i = nameNode then _ else _) = if i = nameNode then _ else _
    rw [hsame]
    split
    · rfl
    · exact h.named hi

/-- The first chart gets the declaration of the node. -/
theorem skip (h : c.Without f d c')
    (hsingle : (c.declare x .function name nameNode d).Single d) (hname : f.Within nameNode d)
    (hown : (c.declare x .function name nameNode d).named nameNode = some d) :
    (c.declare x .function name nameNode d).Without f d c' := by
  have hentry : Entry.declare (c.table x name) .function d = ⟨d, .function, false⟩ ∧
      c.table x name = none := by
    have hdeclares : (Entry.declare (c.table x name) .function d).declaration = d :=
      Option.some.inj ((if_pos rfl).symm.trans hown)
    rcases declare_cases (c.table x name) .function d with ⟨e, he, _, hentry⟩ | ⟨hfresh, hentry⟩
    · rw [hentry] at hdeclares
      have htable : (c.declare x .function name nameNode d).table x name =
          some { e with redeclared := true } := by
        rw [table_declare, if_pos ⟨rfl, rfl⟩, hentry]
      exact absurd (hsingle htable hdeclares) nofun
    · refine ⟨hentry, ?_⟩
      cases he : c.table x name with
      | none => rfl
      | some e => exact absurd (hfresh e he) (by simp [Entry.reusedFor])
  refine ⟨h.around, h.outside, ?_, ?_⟩
  · intro w hw text
    rw [table_declare, hentry.1]
    split
    · rename_i hkey
      rw [hkey.1, hkey.2, h.table (hkey.1 ▸ hw), hentry.2]
      exact (if_neg (by simp)).symm
    · exact h.table hw text
  · intro i hi
    refine (h.named hi).trans (if_neg ?_).symm
    rintro rfl
    exact hi hname

/-- What happens in the subtree does not show outside. -/
theorem inside (h : c.Without f d c') (hx : f.Within x d) (hy : f.Within y d)
    (hz : f.Within z d) (ho : ∀ part, ∀ w ∈ o.nodes part, f.Within w d) :
    (o.chart x y z c).Without f d c' := by
  induction o generalizing x y z c with
  | done => exact h
  | declare hoisted kind name nameNode declaration rest ih =>
      have htarget : f.Within (if hoisted then y else x) d := by
        split
        · exact hy
        · exact hx
      refine ih ⟨h.around, h.outside, ?_, ?_⟩ hx hy hz fun part w hw =>
        ho part w (List.mem_append_right _ hw)
      · intro w hw text
        rw [table_declare, if_neg]
        · exact h.table hw text
        · rintro ⟨rfl, _⟩
          exact hw htarget
      · intro i hi
        refine (h.named hi).trans (if_neg ?_).symm
        rintro rfl
        exact hi (ho .names i List.mem_cons_self)
  | scope kind node inside rest ih ih' =>
      have hnode : f.Within node d := ho .openers node List.mem_cons_self
      have hentered : (c.enter node x).Without f d c' := by
        have hother : ∀ {w}, ¬ f.Within w d → (c.enter node x).around w = c.around w := by
          intro w hw
          refine if_neg ?_
          rintro rfl
          exact hw hnode
        refine ⟨fun hw => (h.around hw).trans (hother hw).symm, fun hw hy => ?_, h.table,
          h.named⟩
        rw [hother hw] at hy
        exact h.outside hw hy
      have htarget : f.Within (if kind.isHoistingTarget then node else z) d := by
        split
        · exact hnode
        · exact hz
      refine ih' (ih hentered hnode hnode htarget ?_) hx hy hz ?_
      · intro part w hw
        exact ho part w (List.mem_append_right _ (List.mem_append_left _ hw))
      · intro part w hw
        exact ho part w (List.mem_append_right _ (List.mem_append_right _ hw))
  | vars inside rest ih ih' =>
      refine ih' (ih h hx hz hz ?_) hx hy hz ?_
      · exact fun part w hw => ho part w (List.mem_append_left _ hw)
      · exact fun part w hw => ho part w (List.mem_append_right _ hw)
  | cut rest ih => exact ih h hx hy hz ho

theorem enter (h : c.Without f d c') (hy : ¬ f.Within y d) (x : NodeId) :
    (c.enter x y).Without f d (c'.enter x y) := by
  refine ⟨?_, ?_, h.table, h.named⟩
  · intro w hw
    change (if w = x then _ else _) = if w = x then _ else _
    rw [h.around hw]
  · intro w v hw hv
    change (if w = x then some y else c.around w) = some v at hv
    split at hv
    · obtain rfl := Option.some.inj hv
      exact hy
    · exact h.outside hw hv

/-- Charting the whole outline and charting the outline without the node. -/
theorem chart {ident : Slot} (h : c.Without f d c') (hd : f.DeclaresFunction d ident)
    (hnested : o.Nested f) (hnames : o.names.Nodup)
    (hlive : ∀ part, ∀ w ∈ (o.trim (some d)).nodes part, part ≠ .declarers → ¬ f.Within w d)
    (hc : c.Functions d) (hsingle : (o.chart x y z c).Single d)
    (hown : ∀ i ∈ o.names, ident = some i → (o.chart x y z c).named i = some d)
    (hx : ¬ f.Within x d) (hy : ¬ f.Within y d) (hz : ¬ f.Within z d) :
    (o.chart x y z c).Without f d ((o.trim (some d)).chart x y z c') := by
  induction o generalizing x y z c c' with
  | done => exact h
  | declare hoisted kind name nameNode declaration rest ih =>
      rw [Outline.names, List.nodup_cons] at hnames
      have hkind : declaration = d → kind = .function := by
        rintro rfl
        exact (hnested.2.1 ident hd).2
      have hfirst := Outline.single_of_chart hnested.2.2 hd (hc.declare hkind) hsingle
      have hown' := fun i hi => hown i (List.mem_cons_of_mem _ hi)
      by_cases hdecl : declaration = d
      · have htrim : (Outline.declare hoisted kind name nameNode declaration rest).trim (some d) =
            rest.trim (some d) := if_pos (congrArg some hdecl.symm)
        rw [htrim] at hlive ⊢
        refine ih ?_ hnested.2.2 hnames.2 hlive (hc.declare hkind) hsingle hown' hx hy hz
        subst hdecl
        obtain rfl := hkind rfl
        refine h.skip hfirst hnested.1 ?_
        rw [← hown nameNode List.mem_cons_self (hnested.2.1 ident hd).1]
        exact (Outline.named_chart hnames.1).symm
      · have htrim : (Outline.declare hoisted kind name nameNode declaration rest).trim (some d) =
            .declare hoisted kind name nameNode declaration (rest.trim (some d)) :=
          if_neg fun heq => hdecl (Option.some.inj heq).symm
        rw [htrim] at hlive ⊢
        have hlive' := fun part w hw => hlive part w (List.mem_append_right _ hw)
        refine ih (h.declare hc hfirst ?_ hdecl) hnested.2.2 hnames.2 hlive' (hc.declare hkind)
          hsingle hown' hx hy hz
        split
        · exact hy
        · exact hx
  | scope kind node inside rest ih ih' =>
      rw [Outline.names, List.nodup_append'] at hnames
      have hinside := Outline.functions_chart (x := node) (y := node)
        (z := if kind.isHoistingTarget then node else z) (c := c.enter node x) hnested.2.1 hd hc
      have hfirst := Outline.single_of_chart hnested.2.2 hd hinside hsingle
      have hown' := fun i hi => hown i (List.mem_append_right _ hi)
      by_cases hnode : node = d
      · have htrim : (Outline.scope kind node inside rest).trim (some d) = rest.trim (some d) :=
          if_pos (congrArg some hnode.symm)
        rw [htrim] at hlive ⊢
        refine ih' ?_ hnested.2.2 hnames.2.1 hlive hinside hsingle hown' hx hy hz
        subst hnode
        have hentered : (c.enter node x).Without f node c' := by
          have hother : ∀ {w}, ¬ f.Within w node → (c.enter node x).around w = c.around w := by
            intro w hw
            refine if_neg ?_
            rintro rfl
            exact hw .refl
          refine ⟨fun hw => (h.around hw).trans (hother hw).symm, fun hw hy => ?_, h.table,
            h.named⟩
          rw [hother hw] at hy
          exact h.outside hw hy
        have htarget : f.Within (if kind.isHoistingTarget then node else z) node := by
          rw [if_pos (hnested.1.2 ident hd)]
          exact .refl
        exact hentered.inside .refl .refl htarget hnested.1.1
      · have htrim : (Outline.scope kind node inside rest).trim (some d) =
            .scope kind node (inside.trim (some d)) (rest.trim (some d)) :=
          if_neg fun heq => hnode (Option.some.inj heq).symm
        rw [htrim] at hlive ⊢
        have hnode' : ¬ f.Within node d := hlive .openers node List.mem_cons_self (by rintro ⟨⟩)
        have htarget : ¬ f.Within (if kind.isHoistingTarget then node else z) d := by
          split
          · exact hnode'
          · exact hz
        refine ih' (ih (h.enter hx node) hnested.2.1 hnames.1 ?_ hc hfirst ?_ hnode' hnode'
          htarget) hnested.2.2 hnames.2.1 ?_ hinside hsingle hown' hx hy hz
        · intro part w hw
          exact hlive part w (List.mem_append_right _ (List.mem_append_left _ hw))
        · intro i hi hident
          rw [← hown i (List.mem_append_left _ hi) hident]
          exact (Outline.named_chart fun hi' => hnames.2.2 hi hi').symm
        · intro part w hw
          exact hlive part w (List.mem_append_right _ (List.mem_append_right _ hw))
  | vars inside rest ih ih' =>
      rw [Outline.names, List.nodup_append'] at hnames
      have hinside := Outline.functions_chart (x := x) (y := z) (z := z) hnested.1 hd hc
      have hfirst := Outline.single_of_chart hnested.2 hd hinside hsingle
      refine ih' (ih h hnested.1 hnames.1 ?_ hc hfirst ?_ hx hz hz) hnested.2 hnames.2.1 ?_
        hinside hsingle (fun i hi => hown i (List.mem_append_right _ hi)) hx hy hz
      · intro part w hw
        exact hlive part w (List.mem_append_left _ hw)
      · intro i hi hident
        rw [← hown i (List.mem_append_left _ hi) hident]
        exact (Outline.named_chart fun hi' => hnames.2.2 hi hi').symm
      · intro part w hw
        exact hlive part w (List.mem_append_right _ hw)
  | cut rest ih => exact ih h hnested hnames hlive hc hsingle hown hx hy hz

end Chart.Without
end Untangle
