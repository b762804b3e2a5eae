import Untangle.Proofs.Scope.Coverage
import Untangle.Proofs.Scope.Records

/-!
# Names in the bodies of `with` statements

The walk that resolves names remembers whether it is inside the body of a `with` statement, and
what it remembers is where it is in the tree. So the dynamic names are those that are used in
such a body. No binding that is used or declared there is stable.
-/

namespace Untangle

open Forest
open Relation (ReflTransGen)

/-!
## Bodies
-/

/-- The node lies in the body of a `with` statement, at any depth. -/
def Forest.InWithBody (f : Forest) (i : NodeId) : Prop :=
  ∃ x object body, f.node? (some x) = some (.guarded .withObject object (some body)) ∧
    f.Within i body

namespace Errand

variable (s : Slot)

@[simp] theorem withBody_toValue : (toValue s).withBody = false :=
  rfl

@[simp] theorem withBody_toTarget (kind : Option ReferenceKind) :
    (toTarget kind s).withBody = false :=
  rfl

@[simp] theorem any_withBody_toValueIf (condition : Bool) :
    (toValueIf condition s).any withBody = false := by
  cases condition <;> rfl

end Errand

namespace Node

variable {n : Node Slot} {p : Purpose} {e : Errand}

/-- The walk goes into a body from a `with` statement only. -/
theorem any_withBody_errands (p : Purpose)
    (h : ∀ object body, n ≠ .guarded .withObject object body) :
    (n.errands p).any Errand.withBody = false := by
  cases p with
  | value kind =>
      cases n with
      | guarded form condition statement =>
          cases form with
          | withObject => exact absurd rfl (h condition statement)
          | _ => simp [errands, valueErrands]
      | access form _ _ _ _ | binary form _ _ _ | call form _ _ _ _ =>
          cases form <;> simp [errands, valueErrands, Function.comp_def]
      | _ => simp [errands, valueErrands, Function.comp_def]
  | target kind => cases n <;> simp [errands, targetErrands, Function.comp_def]

theorem eq_withObject_of_withBody (he : e ∈ n.errands p) (hbody : e.withBody = true) :
    ∃ object, n = .guarded .withObject object e.slot := by
  by_cases hn : ∃ object body, n = .guarded .withObject object body
  · rcases hn with ⟨object, body, rfl⟩
    refine ⟨object, ?_⟩
    cases p with
    | value kind =>
        rcases List.mem_cons.mp he with rfl | he
        · cases hbody
        · obtain rfl := List.mem_singleton.mp he
          rfl
    | target kind => cases he
  · push Not at hn
    exact absurd hbody (List.any_eq_false.mp (any_withBody_errands p hn) e he)

end Node

namespace Forest

variable {f : Forest} {root i c : NodeId} {n : Node Slot} {p : Purpose} {e : Errand}

/-- A body is entered from its own statement, or further up. -/
theorem InWithBody.of_link (hf : f.WellFormed) (hn : f.node? (some i) = some n)
    (hlink : f.Link c i) :
    f.InWithBody c ↔ f.InWithBody i ∨ ∃ object, n = .guarded .withObject object (some c) := by
  constructor
  · rintro ⟨x, object, body, hx, hwithin⟩
    rcases hwithin.cases_head with rfl | ⟨j, hj, hwithin⟩
    · have hbody : f.Link c x :=
        hf.link_of_slot hx (List.mem_cons_of_mem _ (List.mem_singleton_self _))
      obtain rfl := Link.unique hlink hbody
      exact Or.inr ⟨object, Option.some.inj (hn.symm.trans hx)⟩
    · obtain rfl := Link.unique hlink hj
      exact Or.inl ⟨x, object, body, hx, hwithin⟩
  · rintro (⟨x, object, body, hx, hwithin⟩ | ⟨object, rfl⟩)
    · exact ⟨x, object, body, hx, .head hlink hwithin⟩
    · exact ⟨i, object, c, hn, .refl⟩

theorem not_inWithBody_root (hf : f.WellFormed) (hroot : f.parent (some root) = none) :
    ¬ f.InWithBody root := by
  rintro ⟨x, object, body, hx, hwithin⟩
  have hbody : f.Link body x :=
    hf.link_of_slot hx (List.mem_cons_of_mem _ (List.mem_singleton_self _))
  rcases hwithin.cases_head with rfl | ⟨j, hj, _⟩
  · cases hroot.symm.trans hbody
  · cases hroot.symm.trans hj

/-- The walk goes on into a body by the errand that says so. -/
theorem inWithBody_of_errand (hf : f.WellFormed) (hn : f.node? (some i) = some n)
    (hagain : n.again? p = none) (he : e ∈ n.errands p) (hc : e.slot = some c) :
    f.InWithBody c ↔ f.InWithBody i ∨ e.withBody = true := by
  rw [InWithBody.of_link hf hn (hf.link_of_errand hn he hc)]
  refine or_congr_right ⟨?_, fun hbody => ?_⟩
  · rintro ⟨object, rfl⟩
    cases p with
    | target kind => cases hagain
    | value kind =>
        have hbody : ⟨.value .read, true, some c⟩ ∈
            (Node.guarded .withObject object (some c) : Node Slot).errands (.value kind) :=
          List.mem_cons_of_mem _ (List.mem_singleton_self _)
        rw [hf.errand_unique (p := .value kind) hn he hbody hc rfl]
  · rw [← hc]
    exact Node.eq_withObject_of_withBody he hbody

/-!
## What the walk remembers
-/

/-- The stop knows whether what it deals with lies in the body of a `with` statement. -/
def Located (f : Forest) : Stop → Prop
  | .use _ inWith _ _ node => inWith = true ↔ f.InWithBody node
  | .mark inWith nameNode => ∀ i, nameNode = some i → (inWith = true ↔ f.InWithBody i)
  | .cut => True

theorem located_of_mem_stops {o : Outlook} {stop : Stop} (hf : f.WellFormed)
    (hn : f.node? (some i) = some n) (ho : o.inWith = true ↔ f.InWithBody i)
    (h : stop ∈ n.stops o i p) : f.Located stop := by
  unfold Node.stops at h
  split at h
  · split at h
    · rw [List.mem_singleton.mp h]
      exact ho
    · rw [List.mem_singleton.mp h]
      rintro c ⟨⟩
      exact ho
  · rw [List.mem_singleton.mp h]
    rintro c rfl
    rw [ho, InWithBody.of_link hf hn (hf.link_of_ownName hn rfl)]
    exact (or_iff_left nofun).symm
  · cases h

/-- Every stop of a walk from the root knows it. -/
theorem located_of_mem_itinerary {opened : NodeId → Option ScopeId} {depth : Nat} {s : ScopeId}
    {stop : Stop} (hf : f.WellFormed) (hroot : f.parent (some root) = none)
    (h : stop ∈ f.itinerary opened depth (.value .read) ⟨s, false⟩ (some root)) :
    f.Located stop := by
  by_cases hcut : stop = .cut
  · rw [hcut]
    trivial
  · have henter : ∀ {o : Outlook} {opened p}, (o.enter opened p).inWith = o.inWith := by
      intro o opened p
      cases p <;> rfl
    have hposition := exists_of_mem_itinerary
      (I := fun _ x o => o.inWith = true ↔ f.InWithBody x.2)
      (fun ho _ _ => by rw [henter]; exact ho)
      (fun {d i n p e c o} ho hn hagain he hc => by
        change ((o.enter _ _).inWith || e.withBody) = true ↔ _
        rw [henter, Bool.or_eq_true, ho, inWithBody_of_errand hf hn hagain he hc])
      (iff_of_false Bool.false_ne_true (not_inWithBody_root hf hroot)) h hcut
    rcases hposition with ⟨_, q, c, n, o, ho, hn, hstop⟩
    exact located_of_mem_stops hf hn (by rw [henter]; exact ho) hstop

end Forest

/-!
## Dynamic names
-/

namespace Bindings

variable {f : Forest} {root i : NodeId} {b : Bindings} {j : BindingId} {binding : Binding}

@[simp] theorem dynamicNames_declare (scope : ScopeId) (kind : BindingKind) (name : String)
    (nameNode declaration : NodeId) :
    (b.declare scope kind name nameNode declaration).dynamicNames = b.dynamicNames := by
  unfold declare
  extract_lets reused
  cases reused <;> rfl

theorem dynamicNames_play (o : Outline) (s t : ScopeId) (b : Bindings) :
    (o.play s t b).dynamicNames = b.dynamicNames := by
  induction o generalizing s t b with
  | done => rfl
  | declare hoisted kind name nameNode declaration rest ih => exact (ih ..).trans (by simp)
  | scope kind node inside rest ih ih' => exact (ih' ..).trans (ih ..)
  | vars inside rest ih ih' => exact (ih' ..).trans (ih ..)
  | cut rest ih => exact ih s t b.truncate

theorem mem_dynamicNames_apply {stop : Stop} :
    i ∈ (stop.apply b).dynamicNames ↔
      i ∈ b.dynamicNames ∨ ∃ scope kind name, stop = .use scope true kind name i := by
  cases stop with
  | use scope inWith kind name node =>
      have h : i ∈ (b.addReference scope inWith kind name node).dynamicNames ↔
          i ∈ b.dynamicNames ∨ (inWith = true ∧ node = i) := by
        unfold addReference
        cases inWith <;> dsimp only <;> split <;> simp [modifyBinding, or_comm]
      refine h.trans (or_congr_right ⟨?_, ?_⟩)
      · rintro ⟨rfl, rfl⟩
        exact ⟨scope, kind, name, rfl⟩
      · rintro ⟨_, _, _, ⟨⟩⟩
        exact ⟨rfl, rfl⟩
  | mark inWith nameNode =>
      have h : (b.markDynamic inWith nameNode).dynamicNames = b.dynamicNames := by
        unfold markDynamic
        split
        · cases b.resolve nameNode <;> rfl
        · rfl
      simp [Stop.apply, h]
  | cut => simp [Stop.apply, truncate]

theorem mem_dynamicNames_after {stops : List Stop} :
    i ∈ (b.after stops).dynamicNames ↔
      i ∈ b.dynamicNames ∨ ∃ scope kind name, .use scope true kind name i ∈ stops := by
  induction stops generalizing b with
  | nil => simp [after]
  | cons stop stops ih =>
      refine (ih (b := stop.apply b)).trans ?_
      rw [mem_dynamicNames_apply, or_assoc]
      simp only [List.mem_cons, exists_or, eq_comm]

/-- The dynamic names are those that are used in the bodies of `with` statements. -/
theorem isDynamic_iff_used (hf : f.WellFormed) (hroot : f.parent (some root) = none)
    (hwhole : (ofForest f (some root)).truncated = false) :
    (ofForest f (some root)).isDynamic (some i) = true ↔
      (∃ kind name, Used f root kind name i) ∧ f.InWithBody i := by
  have hdynamic : (ofForest f (some root)).isDynamic (some i) = true ↔
      ∃ scope kind name, .use scope true kind name i ∈ route f root := by
    have hnone : i ∉ (declarations f root).dynamicNames := by
      rw [declarations, dynamicNames_play]
      exact Std.HashSet.not_mem_empty
    change (ofForest f (some root)).dynamicNames.contains i = true ↔ _
    rw [← Std.HashSet.mem_iff_contains, ofForest_eq, mem_dynamicNames_after, or_iff_right hnone]
  have hlocated : ∀ {scope inWith kind name}, .use scope inWith kind name i ∈ route f root →
      (inWith = true ↔ f.InWithBody i) := located_of_mem_itinerary hf hroot
  rw [hdynamic]
  constructor
  · rintro ⟨scope, kind, name, hmem⟩
    have hused := (mem_route_iff hwhole).mp ⟨scope, true, hmem⟩
    exact ⟨⟨kind, name, hused⟩, (hlocated hmem).mp rfl⟩
  · rintro ⟨⟨kind, name, hused⟩, hbody⟩
    rcases (mem_route_iff hwhole).mpr hused with ⟨scope, inWith, hmem⟩
    obtain rfl := (hlocated hmem).mpr hbody
    exact ⟨scope, kind, name, hmem⟩

/-- They are the references in these bodies. -/
theorem isDynamic_ofForest_iff (hf : f.WellFormed) (hbare : f.BareNames)
    (hroot : f.parent (some root) = none)
    (hwhole : (ofForest f (some root)).truncated = false) :
    (ofForest f (some root)).isDynamic (some i) = true ↔
      f.Mentions root i ∧ f.InWithBody i := by
  rw [isDynamic_iff_used hf hroot hwhole, hbare.used_iff hf hroot]

/-!
## Kinds of declarations
-/

/-- Every binding has a name that declares it as what it is. -/
def Entitled (f : Forest) (b : Bindings) : Prop :=
  ∀ ⦃j binding⦄, b.binding? j = some binding → f.DeclaresAs binding.kind binding.nameNode

theorem Entitled.declare (h : b.Entitled f) {scope : ScopeId} {kind : BindingKind} {name : String}
    {nameNode declaration : NodeId} (hname : f.DeclaresAs kind nameNode) :
    (b.declare scope kind name nameNode declaration).Entitled f := by
  intro j binding hj
  revert hj
  unfold Bindings.declare
  extract_lets reused
  cases reused with
  | some i =>
      intro hj
      simp only [attach, modifyBinding, binding?, Array.getElem?_modify] at hj
      split at hj
      · rcases Option.map_eq_some_iff.mp hj with ⟨old, hold, rfl⟩
        exact (h hold : f.DeclaresAs old.kind old.nameNode)
      · exact h hj
  | none =>
      intro hj
      simp only [attach, binding?, Array.getElem?_push] at hj
      split at hj
      · obtain rfl := Option.some.inj hj
        exact hname
      · exact h hj

theorem Entitled.play {o : Outline} (h : b.Entitled f) (ho : o.Entitled f) (s t : ScopeId) :
    (o.play s t b).Entitled f := by
  induction o generalizing s t b with
  | done => exact h
  | declare hoisted kind name nameNode declaration rest ih => exact ih (h.declare ho.1) ho.2 s t
  | scope kind node inside rest ih ih' =>
      have hopened : (b.openScope kind (some node) (some s)).2.Entitled f := h
      exact ih' (ih hopened ho.1 ..) ho.2 s t
  | vars inside rest ih ih' => exact ih' (ih h ho.1 ..) ho.2 s t
  | cut rest ih =>
      have hcut : b.truncate.Entitled f := h
      exact ih hcut ho s t

theorem declaresAs_nameNode (hj : (ofForest f (some root)).binding? j = some binding) :
    f.DeclaresAs binding.kind binding.nameNode := by
  have hstart : (start root).Entitled f := by
    intro j binding hj
    simp [start, openScope, empty, binding?] at hj
  have hdeclarations : (declarations f root).Entitled f :=
    hstart.play ((Sketch.entitled_ofDepth f _).node (some root)) _ _
  rcases exists_declared hj with ⟨old, hold, horigin⟩
  rw [show binding.kind = old.kind from (congrArg Binding.kind horigin :).symm,
    show binding.nameNode = old.nameNode from (congrArg Binding.nameNode horigin :).symm]
  exact hdeclarations hold

/-!
## Bindings that are not stable
-/

theorem not_isStable_of_dynamic (h : binding.dynamic = true) : binding.isStable = false := by
  rw [Binding.isStable, h, Bool.not_true, Bool.and_false]

theorem binding?_markDynamic {nameNode : Slot} (hj : b.resolve nameNode = some j)
    {old : Binding} (hold : b.binding? j = some old) :
    (b.markDynamic true nameNode).binding? j = some { old with dynamic := true } := by
  have hold' : b.bindings[j]? = some old := hold
  simp [markDynamic, hj, modifyBinding, binding?, Array.getElem?_modify, hold']

/-- A binding is dynamic once a stop in the body of a `with` statement has come to it. -/
theorem dynamic_of_stop {stop : Stop}
    (hj : (ofForest f (some root)).binding? j = some binding) (hmem : stop ∈ route f root)
    (hstop : ∀ before ⊆ route f root, ∀ old,
      ((declarations f root).after before).binding? j = some old →
        ∃ new, (stop.apply ((declarations f root).after before)).binding? j = some new ∧
          new.dynamic = true) : binding.dynamic = true := by
  rcases exists_declared hj with ⟨old, hold, _⟩
  rcases exists_grown_of_mem hold hmem (fun h hgrows => hgrows.dynamic h) hstop with
    ⟨new, hnew, hdynamic⟩
  rw [← ofForest_eq] at hnew
  exact Option.some.inj (hj.symm.trans hnew) ▸ hdynamic

section Program

variable (hprogram : f.HasProgram root) (hwhole : (ofForest f (some root)).truncated = false)

include hprogram

/-- A reference in the body of a `with` statement makes its binding dynamic. -/
theorem dynamic_of_reference {r : Reference}
    (hj : (ofForest f (some root)).binding? j = some binding) (hr : r ∈ binding.references)
    (hbody : f.InWithBody r.node) : binding.dynamic = true := by
  rcases exists_use hprogram.wellFormed hj hr with ⟨scope, inWith, name, hmem, hlookup⟩
  obtain rfl : inWith = true :=
    (located_of_mem_itinerary hprogram.wellFormed hprogram.parent hmem).mpr hbody
  refine dynamic_of_stop hj hmem fun before _ old hold => ?_
  refine ⟨_, binding?_addReference ?_ hold, Bool.or_true _⟩
  rw [(sameTables_after _ before).lookup, hlookup]

include hwhole

/-- The walk comes to the names of variables, parameters, caught values and function
declarations. -/
theorem exists_mark (hbare : f.BareNames) {kind : BindingKind} {text : String}
    (hn : f.node? (some i) = some (.name .identifier text)) (hwithin : f.Within i root)
    (hi : f.DeclaresAs kind i) (hname : kind ≠ .functionName) (hclass : kind ≠ .«class») :
    ∃ inWith, .mark inWith (some i) ∈ route f root := by
  have hf := hprogram.wellFormed
  have hcut := (truncated_ofForest.mp hwhole).2
  have hmark : ∀ {p c n}, Reached f root (p, c) → f.node? (some c) = some n →
      n.again? p = none → (∀ o, .mark o.inWith (some i) ∈ n.stops o c p) →
        ∃ inWith, .mark inWith (some i) ∈ route f root := by
    intro p c n hreached hc hagain hstop
    rcases exists_itinerary_of_reached hreached hcut with ⟨d, o', hsub⟩
    cases d with
    | zero => exact absurd (hsub (List.mem_singleton_self _)) hcut
    | succ d =>
        rw [itinerary_here hc hagain, List.append_subset] at hsub
        exact ⟨_, hsub.1 (hstop _)⟩
  cases hi with
  | pattern hbinds =>
      refine hmark (hbare.reached_of_binds hf hprogram.parent hwithin hbinds) hn rfl fun o => ?_
      exact List.mem_singleton_self _
  | @own p n hp hown hkind =>
      have hlink := hf.link_of_ownName hp hown
      have hfunction : f.DeclaresFunction p (some i) := by
        cases n with
        | function form ident parameters code isAsync isGenerator =>
            cases form with
            | declaration =>
                obtain rfl : ident = some i := hown
                exact ⟨parameters, code, isAsync, isGenerator, hp⟩
            | expression => exact absurd (Option.some.inj hkind).symm hname
            | arrow => cases hkind
        | classLike _ _ _ _ => exact absurd (Option.some.inj hkind).symm hclass
        | _ => cases hkind
      rcases hbare.reached_of_declaresFunction hf (hwithin.parent hprogram.parent hlink) hfunction
        with ⟨use, hreached⟩
      rcases hfunction with ⟨parameters, code, isAsync, isGenerator, hp⟩
      exact hmark hreached hp rfl fun o => List.mem_singleton_self _

/-- So does the name of the binding, unless it is that of a function expression or a class. -/
theorem dynamic_of_nameNode (hbare : f.BareNames)
    (hj : (ofForest f (some root)).binding? j = some binding)
    (hname : binding.kind ≠ .functionName) (hclass : binding.kind ≠ .«class»)
    (hbody : f.InWithBody binding.nameNode) : binding.dynamic = true := by
  have hf := hprogram.wellFormed
  obtain ⟨hdeclares, hresolved⟩ := declares_nameNode hprogram hj
  have hwithin : f.Within binding.nameNode root := by
    by_contra hout
    have hnot : binding.nameNode ∉ (outline f root).names := fun hmem => by
      rw [← Outline.nodes_names] at hmem
      exact hout ((placed_outline hprogram .names).2 _ hmem).1
    have hnone : (declarations f root).resolved[binding.nameNode]? = none :=
      (Outline.resolved_play _ _ _ _ hnot).trans Std.HashMap.getElem?_empty
    cases hresolved.symm.trans hnone
  rcases exists_declared hj with ⟨old, hold, horigin⟩
  have htext := (declared_declarations hf root).name hold
  rw [show old.nameNode = binding.nameNode from (congrArg Binding.nameNode horigin :)] at htext
  rcases exists_mark hprogram hwhole hbare htext hwithin (declaresAs_nameNode hj) hname hclass with
    ⟨inWith, hmem⟩
  obtain rfl : inWith = true :=
    (located_of_mem_itinerary hf hprogram.parent hmem _ rfl).mpr hbody
  refine dynamic_of_stop hj hmem fun before hsub old hold => ?_
  refine ⟨_, binding?_markDynamic ?_ hold, rfl⟩
  -- No use comes between, since the name is declared.
  rw [resolve, Option.bind_some, resolved_after_of_not_used, hresolved]
  intro stop hstop huser
  cases stop with
  | use scope inWith kind name node =>
      obtain rfl : node = binding.nameNode := Option.some.inj huser
      have hused := (mem_route_iff hwhole).mp ⟨scope, inWith, hsub hstop⟩
      exact not_declares_of_used hf hprogram.parent hused hdeclares
  | mark _ _ => cases huser
  | cut => cases huser

/-- What lies in the body of a `with` statement is unknown. The dynamic identifiers are exactly
the references there, and a binding that has one, or is declared there as a variable, a parameter,
a caught value or a function, is not stable. -/
theorem unknown_in_withBody (hbare : f.BareNames) :
    (∀ i, (ofForest f (some root)).isDynamic (some i) = true ↔
      f.Mentions root i ∧ f.InWithBody i) ∧
    ∀ j binding, (ofForest f (some root)).binding? j = some binding →
      ((∃ r ∈ binding.references, f.InWithBody r.node) ∨
        (binding.kind ≠ .functionName ∧ binding.kind ≠ .«class» ∧
          f.InWithBody binding.nameNode)) → binding.isStable = false := by
  refine ⟨fun i => isDynamic_ofForest_iff hprogram.wellFormed hbare hprogram.parent hwhole, ?_⟩
  intro j binding hj hbody
  apply not_isStable_of_dynamic
  rcases hbody with ⟨r, hr, hbody⟩ | ⟨hname, hclass, hbody⟩
  · exact dynamic_of_reference hprogram hj hr hbody
  · exact dynamic_of_nameNode hprogram hwhole hbare hj hname hclass hbody

end Program

/-- A name in a function in the body is dynamic; the object of the statement is not. -/
theorem unknown_in_withBody_function :
    ∃ p, Program.parse "with (o) \x7b (function (c) \x7b a; \x7d); \x7d" = .ok p ∧
      p.forest.HasProgram p.root ∧ p.forest.BareNames ∧
      ∃ b, b = ofForest p.forest (some p.root) ∧ b.truncated = false ∧
        b.isDynamic (some 2) = true ∧ b.isDynamic (some 0) = false ∧
        ∀ j binding, b.binding? j = some binding →
          ((∃ r ∈ binding.references, p.forest.InWithBody r.node) ∨
            (binding.kind ≠ .functionName ∧ binding.kind ≠ .«class» ∧
              p.forest.InWithBody binding.nameNode)) → binding.isStable = false := by
  have hfacts : ∃ p ∈ (Program.parse "with (o) \x7b (function (c) \x7b a; \x7d); \x7d").toOption,
      ∃ stops, stops = p.forest.itinerary (fun _ => none) (Limits.treeDepth + 1) (.value .read)
          ⟨programScope, false⟩ (some p.root) ∧
        (outline p.forest p.root).Whole ∧ .cut ∉ stops ∧
        .use 0 true .read "a" 2 ∈ stops ∧ .use 0 false .read "o" 0 ∈ stops := by
    simp only [exists_eq_left]
    decide +kernel
  rcases hfacts with ⟨p, hp, _, rfl, houtline, hcut, ha, ho⟩
  have hparse := Program.parse_of_mem_toOption hp
  have hprogram := Program.hasProgram_parse hparse
  have hbare := Program.bareNames_parse hparse
  have hwhole := truncated_ofForest.mpr ⟨houtline, fun h => hcut (cut_mem_itinerary h)⟩
  have hunknown := unknown_in_withBody hprogram hwhole hbare
  have hobject := located_of_mem_itinerary hprogram.wellFormed hprogram.parent ho
  have hname := located_of_mem_itinerary hprogram.wellFormed hprogram.parent ha
  refine ⟨p, hparse, hprogram, hbare, _, rfl, hwhole, ?_, ?_, hunknown.2⟩
  · refine (hunknown.1 2).mpr ⟨?_, hname.mp rfl⟩
    rw [← hbare.used_iff hprogram.wellFormed hprogram.parent]
    exact ⟨_, _, (use_mem_itinerary_iff hcut).mp ⟨_, _, ha⟩⟩
  · rw [Bool.eq_false_iff]
    exact fun hdynamic => Bool.false_ne_true (hobject.mpr ((hunknown.1 0).mp hdynamic).2)

end Bindings
end Untangle
