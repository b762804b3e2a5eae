import Untangle.Proofs.Scope.References
import Untangle.Proofs.Scope.Registry

/-!
# Trees without a function

A tree may lose the declaration of a function that is never used. The names that are left stand for
what they stood for, and the tree is not too deep when it was not too deep before.
-/

namespace Untangle

open Forest Bindings

/-!
## Outlines without a function
-/

namespace Outline

variable {f : Forest} {o : Outline} {d w : NodeId}

theorem trim_of_not_mem (hd : ∀ part, d ∉ o.nodes part) : o.trim (some d) = o.trim none := by
  induction o with
  | done => rfl
  | declare hoisted kind name nameNode declaration rest ih =>
      have hdecl : some d ≠ some declaration := by
        rintro ⟨⟩
        exact hd .declarers (List.mem_append_left _ (List.mem_singleton_self _))
      have hrest := ih fun part hmem => hd part (List.mem_append_right _ hmem)
      exact (if_neg hdecl).trans (congrArg (declare hoisted kind name nameNode declaration) hrest)
  | scope kind node inside rest ih ih' =>
      have hnode : some d ≠ some node := by
        rintro ⟨⟩
        exact hd .openers (List.mem_append_left _ (List.mem_singleton_self _))
      have hinside := ih fun part hmem =>
        hd part (List.mem_append_right _ (List.mem_append_left _ hmem))
      have hrest := ih' fun part hmem =>
        hd part (List.mem_append_right _ (List.mem_append_right _ hmem))
      exact (if_neg hnode).trans (congrArg₂ (scope kind node) hinside hrest)
  | vars inside rest ih ih' =>
      have hinside := ih fun part hmem => hd part (List.mem_append_left _ hmem)
      have hrest := ih' fun part hmem => hd part (List.mem_append_right _ hmem)
      exact congrArg₂ vars hinside hrest
  | cut rest ih => exact ih hd

/-- Only scopes in the subtree of the node are dropped. -/
theorem mem_openers_trim (hnested : o.Nested f) (hw : ¬ f.Within w d) :
    w ∈ (o.trim (some d)).openers ↔ w ∈ o.openers := by
  induction o with
  | done => rfl
  | declare hoisted kind name nameNode declaration rest ih =>
      unfold trim
      split
      · exact ih hnested.2.2
      · exact ih hnested.2.2
  | scope kind node inside rest ih ih' =>
      unfold trim
      split
      · rename_i hnode
        obtain rfl := Option.some.inj hnode
        refine (ih' hnested.2.2).trans ⟨fun h => ?_, fun h => ?_⟩
        · exact List.mem_cons_of_mem _ (List.mem_append_right _ h)
        · rcases List.mem_cons.mp h with rfl | h
          · exact absurd .refl hw
          · refine (List.mem_append.mp h).resolve_left fun h => hw ?_
            exact hnested.1.1 .openers w (inside.nodes_openers ▸ h)
      · simp only [openers, List.mem_cons, List.mem_append, ih hnested.2.1, ih' hnested.2.2]
  | vars inside rest ih ih' =>
      simp only [trim, openers, List.mem_append, ih hnested.1, ih' hnested.2]
  | cut rest ih => exact ih hnested

theorem mem_names_of_trim {dead : Option NodeId} (hw : w ∈ (o.trim dead).names) :
    w ∈ o.names := by
  induction o with
  | done => exact hw
  | declare hoisted kind name nameNode declaration rest ih =>
      unfold trim at hw
      split at hw
      · exact List.mem_cons_of_mem _ (ih hw)
      · exact List.mem_cons.mpr ((List.mem_cons.mp hw).imp_right ih)
  | scope kind node inside rest ih ih' =>
      unfold trim at hw
      split at hw
      · exact List.mem_append_right _ (ih' hw)
      · exact List.mem_append.mpr ((List.mem_append.mp hw).imp ih ih')
  | vars inside rest ih ih' =>
      exact List.mem_append.mpr ((List.mem_append.mp hw).imp ih ih')
  | cut rest ih => exact ih hw

end Outline

theorem Bindings.nested_outline {f : Forest} (hf : f.WellFormed) (root : NodeId) :
    (outline f root).Nested f :=
  (Sketch.nests_ofDepth hf (Limits.treeDepth + 1)).node (some root)

/-- A node lies in the node that opens the scope around it. -/
theorem Forest.Inside.within {f : Forest} {opens : NodeId → Prop} {i x : NodeId}
    (hx : f.Inside opens i x) : f.Within i x := by
  induction hx with
  | here _ => exact .refl
  | outward _ hlink _ ih => exact .head hlink ih

/-!
## Dropping a function
-/

/-- `g` is the tree `f` without the function declaration `d`, whose place is empty or taken by an
empty statement. -/
structure Dropped (f g : Forest) (root d : NodeId) (c : NodeId → NodeId) : Prop
    extends Kept f g root (some d) c where
  before : f.HasProgram root
  after : g.HasProgram root
  gone : ¬ g.Within d root
  new : ∀ {i n}, f.size ≤ i → g.node? (some i) = some n → n = .bare .emptyStatement

/-- The children that are left are those from before. -/
theorem Revision.exists_child {f g : Forest} {d j : NodeId} {c : NodeId → NodeId}
    {n n' : Node Slot} (hrevision : Revision f g (some d) c n n') (hj : j ∈ childrenOf n') :
    ∃ i ∈ childrenOf n, c i = j := by
  have herased : ∀ {slots : List Slot}, some j ∈ (slots.erase (some d)).map (Option.map c) →
      ∃ i, some i ∈ slots ∧ c i = j := by
    intro slots hmem
    rcases List.mem_map.mp hmem with ⟨s, hs, hsj⟩
    rcases Option.map_eq_some_iff.mp hsj with ⟨i, rfl, hij⟩
    exact ⟨i, List.mem_of_mem_erase hs, hij⟩
  rw [mem_childrenOf] at hj
  simp only [mem_childrenOf]
  cases hrevision with
  | mapped =>
      rw [Node.slots_map] at hj
      rcases List.mem_map.mp hj with ⟨s, hs, hsj⟩
      rcases Option.map_eq_some_iff.mp hsj with ⟨i, rfl, hij⟩
      exact ⟨i, hs, hij⟩
  | expression hdead _ => cases hdead
  | body form statements hd =>
      obtain rfl := Option.some.inj hd
      exact herased hj
  | clause test statements hd =>
      obtain rfl := Option.some.inj hd
      rcases List.mem_cons.mp hj with htest | hmem
      · rcases Option.map_eq_some_iff.mp htest.symm with ⟨i, rfl, hij⟩
        exact ⟨i, List.mem_cons_self, hij⟩
      · rcases herased hmem with ⟨i, hi, hij⟩
        exact ⟨i, List.mem_cons_of_mem _ hi, hij⟩

namespace Dropped

variable {f g : Forest} {root d d' i j : NodeId} {c : NodeId → NodeId}
  (h : Dropped f g root d c)

include h

theorem root_lt : root < f.size := by
  rcases h.before.node with ⟨statements, hn⟩
  exact lt_size_of_node? hn

/-- What is left was not below the function. -/
theorem outside (hi : g.Within i root) (hlt : i < f.size) : ¬ f.Within i d := by
  intro hpath
  induction hpath using Relation.ReflTransGen.head_induction_on with
  | refl => exact h.gone hi
  | @head i q hlink _ ih =>
      have hne : i ≠ root := by
        rintro rfl
        cases h.before.parent.symm.trans hlink
      have hlink' := (h.carried.link hi hlt hne).mpr hlink
      rcases Relation.ReflTransGen.cases_head hi with heq | ⟨b, hb, hrest⟩
      · exact hne heq
      · exact ih (Link.unique hb hlink' ▸ hrest) (h.before.wellFormed.lt_size_of_link hlink)

theorem outside_root : ¬ f.Within root d :=
  h.outside .refl h.root_lt

/-!
### Depth
-/

/-- The walk that resolves names gives up only where it gave up before. -/
theorem cut_mem_itinerary {opened opened' : NodeId → Option ScopeId} {depth : Nat} {p : Purpose}
    {o o' : Outlook} {s : Slot} (hs : Revised.Live f s)
    (hcut : .cut ∈ g.itinerary opened' depth p o' (s.map c)) :
    .cut ∈ f.itinerary opened depth p o s := by
  refine h.carried.cut_mem_itinerary h.before.wellFormed ?_ ?_ hs hcut
  · intro i n n' hn hn' b hb
    obtain ⟨m, hm, hrevision⟩ := h.node hn
    obtain rfl := Option.some.inj (hn'.symm.trans hm)
    exact hrevision.exists_child hb
  · -- An empty statement takes the place of the function, where the walk goes no further.
    intro i depth p o o' hi hcut
    rcases h.moved hi with ⟨hd, hempty⟩
    rcases h.dead hd with ⟨ident, parameters, code, isAsync, isGenerator, hn⟩
    induction depth generalizing p o o' with
    | zero => exact List.mem_singleton_self _
    | succ depth ih =>
        cases p with
        | value kind =>
            rw [itinerary_here hempty rfl] at hcut
            cases hcut
        | target kind =>
            rw [itinerary_again hempty rfl] at hcut
            rw [itinerary_again hn rfl]
            exact ih hcut

theorem root_eq : c root = root := by
  by_contra hne
  rcases h.before.node with ⟨statements, hn⟩
  rcases h.dead (h.moved hne).1 with ⟨_, _, _, _, _, hfunction⟩
  cases hn.symm.trans hfunction

/-- The tree is bound as a whole as before. -/
theorem whole (hwhole : (ofForest f (some root)).truncated = false) :
    (ofForest g (some root)).truncated = false := by
  rcases truncated_ofForest.mp hwhole with ⟨houtline, hcut⟩
  refine truncated_ofForest.mpr ⟨(h.same_outline h.before).whole nofun houtline, ?_⟩
  intro hcut'
  have hlive : Revised.Live f (some root) := by
    rintro i ⟨⟩
    exact h.root_lt
  have hroot : (some root).map c = some root := congrArg some h.root_eq
  rw [route, ← hroot] at hcut'
  exact hcut (h.cut_mem_itinerary hlive hcut')

/-!
### Charts
-/

theorem trim_outline : (outline f root).trim (some d) = (outline g root).trim none := by
  refine (h.same_outline h.before).trim.trans (Outline.trim_of_not_mem fun part hmem => ?_)
  exact h.gone ((placed_outline h.after part).2 d hmem).1

theorem opens_iff (hi : ¬ f.Within i d) : Opens g root i ↔ Opens f root i := by
  rw [Opens, Opens, ← Outline.openers_trim_none, ← h.trim_outline]
  exact or_congr_right (Outline.mem_openers_trim (nested_outline h.before.wellFormed root) hi)

/-- What is mentioned outside was mentioned before and is not below the function. -/
theorem not_within_of_mem {part : Outline.Part} {w : NodeId}
    (hw : w ∈ (outline g root).nodes part) : ¬ f.Within w d := by
  intro hpath
  have hdlt : d < f.size := by
    rcases h.dead rfl with ⟨_, _, _, _, _, hn⟩
    exact lt_size_of_node? hn
  exact h.outside ((placed_outline h.after part).2 w hw).1 (lt_size_of_within hpath hdlt) hpath

theorem without (honce : DeclaredOnce f root d) :
    Chart.Without f d (chart f root) (chart g root) := by
  rcases honce.function with ⟨ident, hd⟩
  have hnames := placed_outline h.before .names
  rw [Outline.nodes_names] at hnames
  have hlive : ∀ part, ∀ w ∈ ((outline f root).trim (some d)).nodes part, part ≠ .declarers →
      ¬ f.Within w d := by
    intro part w hw hpart
    rw [h.trim_outline] at hw
    cases part with
    | names =>
        rw [Outline.nodes_names, Outline.names_trim_none, ← Outline.nodes_names] at hw
        exact h.not_within_of_mem hw
    | openers =>
        rw [Outline.nodes_openers, Outline.openers_trim_none, ← Outline.nodes_openers] at hw
        exact h.not_within_of_mem hw
    | declarers => exact absurd rfl hpart
  have hempty : Chart.empty.Without f d .empty := by
    refine ⟨fun _ => rfl, ?_, fun _ _ => rfl, fun _ => rfl⟩
    intro x y _ hy
    cases hy
  have hnone : Chart.empty.Functions d := by
    intro x name e he
    cases he
  have hwithout := hempty.chart hd (nested_outline h.before.wellFormed root) hnames.1 hlive hnone
    honce.single (fun i hi hident => honce.named i (hident ▸ hd) hi)
    h.outside_root h.outside_root h.outside_root
  rwa [h.trim_outline, Outline.chart_trim_none] at hwithout

/-!
### Names
-/

section Names

variable {r : Option NodeId} {kind : ReferenceKind} {name : String}
  (honce : DeclaredOnce f root d) (hunused : Unused f root d)
  (hwhole : (ofForest f (some root)).truncated = false)

theorem used_iff (hi : g.Within i root) (hlt : i < f.size) :
    Used g root kind name i ↔ Used f root kind name i :=
  h.carried.used_iff h.before.wellFormed h.after.wellFormed h.before.parent h.after.parent hi hlt

include honce hunused hwhole

/-- The names that are left stand for what they stood for. -/
theorem denotes (hi : g.Within i root) (hlt : i < f.size) (hr : Denotes f root i r) :
    Denotes g root i r := by
  have hout := h.outside hi hlt
  have hwithout := h.without honce
  cases hr with
  | @used kind name x _ hused hx hmeans =>
      have hne : r ≠ some d := by
        rintro rfl
        have hsame := (denotes_declarationOf h.before hwhole i).unique (.used hused hx hmeans)
        exact hunused hused hsame
      have hx' : ¬ f.Within x d := fun hpath => hout (hx.within.trans hpath)
      have hopens : ∀ {k}, g.Within k root → k < f.size → (Opens g root k ↔ Opens f root k) :=
        fun hk hklt => h.opens_iff (h.outside hk hklt)
      refine .used ((h.used_iff hi hlt).mpr hused) ?_ (hwithout.means hx' hmeans hne)
      exact h.carried.inside hopens h.before.wellFormed hi hlt hx
  | declared hnot =>
      rw [← hwithout.named hout]
      exact .declared fun kind name hused => hnot kind name ((h.used_iff hi hlt).mp hused)

theorem declarationOf_eq (hi : g.Within i root) (hlt : i < f.size) :
    declarationOf g root i = declarationOf f root i := by
  have hr := denotes_declarationOf h.before hwhole i
  exact (denotes_declarationOf h.after (h.whole hwhole) i).unique
    (h.denotes honce hunused hwhole hi hlt hr)

/-- A function that was never used is never used. -/
theorem unused (hunused' : Unused f root d') : Unused g root d' := by
  intro i kind name hused hdecl
  have hi := hused.within h.after.wellFormed
  have hlt : i < f.size := by
    by_contra hge
    cases h.new (Nat.not_lt.mp hge) hused.node
  rw [h.declarationOf_eq honce hunused hwhole hi hlt] at hdecl
  exact hunused' ((h.used_iff hi hlt).mp hused) hdecl

omit hunused hwhole

/-- A function that was declared once is declared once. -/
theorem declaredOnce (honce' : DeclaredOnce f root d') : DeclaredOnce g root d' := by
  have hwithout := h.without honce
  rcases honce'.function with ⟨ident, parameters, code, isAsync, isGenerator, hn⟩
  obtain ⟨n', hn', hrevision⟩ := h.node hn
  obtain rfl : n' = .function .declaration (ident.map c) (parameters.map (Option.map c))
      (code.map c) isAsync isGenerator := by
    cases hrevision with
    | mapped => exact Node.map_function ..
  refine ⟨⟨_, _, _, _, _, hn'⟩, ?_, ?_⟩
  · rintro i ⟨_, _, _, _, hn''⟩ hmem
    have hident : ident.map c = some i := by
      rw [hn''] at hn'
      exact (Node.function.inj (Option.some.inj hn')).2.1.symm
    rcases Option.map_eq_some_iff.mp hident with ⟨k, rfl, hk⟩
    have hnames : i ∈ (outline f root).names := by
      rw [← Outline.names_trim_none, ← h.trim_outline] at hmem
      exact Outline.mem_names_of_trim hmem
    have hi : f.Within i root := by
      rw [← Outline.nodes_names] at hnames
      exact ((placed_outline h.before .names).2 i hnames).1
    obtain rfl := h.carried.eq_of_renamed (lt_size_of_within hi h.root_lt) hk
    rw [← Outline.nodes_names] at hmem
    rw [hwithout.named (h.not_within_of_mem hmem)]
    exact honce'.named k ⟨_, _, _, _, hn⟩ hnames
  · intro x name e he hdecl
    by_cases hopens : Opens g root x
    · have hx : ¬ f.Within x d := by
        rcases hopens with rfl | hmem
        · exact h.outside_root
        · rw [← Outline.nodes_openers] at hmem
          exact h.not_within_of_mem hmem
      rw [hwithout.table hx] at he
      exact honce'.single (Option.filter_eq_some_iff.mp he).1 hdecl
    · have hnone : (declarations g root).opened[x]? = none := by
        rwa [← isSome_opened_iff, Bool.not_eq_true, Option.isSome_eq_false_iff,
          Option.isNone_iff_eq_none] at hopens
      have htable := ((charted_declarations h.after).1.blank hnone).2 name
      cases htable.symm.trans he

end Names

end Dropped
end Untangle
