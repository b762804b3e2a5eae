import Untangle.Proofs.Scope.Denotation
import Untangle.Proofs.Scope.Removal

/-!
# Bindings and their declarations

A binding is found again from the node that declares it and from the name node, since no node
declares two names. Every use that is resolved to a binding is among its references.
-/

namespace Untangle

open Forest

/-!
## Growth of bindings
-/

/-- Uses add references to a binding and may mark it. -/
structure Binding.Grows (old new : Binding) : Prop where
  references : ∀ r ∈ old.references, r ∈ new.references
  dynamic : old.dynamic = true → new.dynamic = true

namespace Binding.Grows

variable {old mid new : Binding}

theorem refl (binding : Binding) : binding.Grows binding :=
  ⟨fun _ hr => hr, id⟩

theorem trans (h : old.Grows mid) (h' : mid.Grows new) : old.Grows new :=
  ⟨fun r hr => h'.references r (h.references r hr), fun hd => h'.dynamic (h.dynamic hd)⟩

end Binding.Grows

namespace Bindings

variable {f : Forest} {root i d : NodeId} {b b' : Bindings} {j : BindingId} {binding : Binding}

/-!
## Declared bindings
-/

/-- The binding can be found from its name and from its declaration. -/
structure Found (f : Forest) (b : Bindings) (j : BindingId) (binding : Binding) : Prop where
  own : ∀ ident, f.DeclaresFunction binding.declaration ident → ident = some binding.nameNode
  resolved : b.resolved[binding.nameNode]? = some j
  declared : b.declared[binding.declaration]? = some j

def Registered (f : Forest) (b : Bindings) : Prop :=
  ∀ ⦃j binding⦄, b.binding? j = some binding → b.Found f j binding

/-- A declaration leaves what is known of other declarations. -/
theorem declared_declare (b : Bindings) (scope : ScopeId) (kind : BindingKind) (name : String)
    (nameNode declaration : NodeId) (hi : i ≠ declaration) :
    (b.declare scope kind name nameNode declaration).declared[i]? = b.declared[i]? := by
  unfold declare
  extract_lets reused
  cases reused <;> simp [attach, modifyBinding, Std.HashMap.getElem?_insert, Ne.symm hi]

theorem declared_play (o : Outline) (s t : ScopeId) (b : Bindings)
    (hi : i ∉ o.nodes .declarers) : (o.play s t b).declared[i]? = b.declared[i]? := by
  induction o generalizing s t b with
  | done => rfl
  | declare hoisted kind name nameNode declaration rest ih =>
      simp only [Outline.nodes, List.mem_append, not_or, Outline.Part.ofName,
        List.mem_singleton] at hi
      exact (ih s t _ hi.2).trans (b.declared_declare _ _ _ _ _ hi.1)
  | scope kind node inside rest ih ih' =>
      simp only [Outline.nodes, List.mem_append, not_or] at hi
      exact (ih' s t _ hi.2.2).trans (ih _ _ _ hi.2.1)
  | vars inside rest ih ih' =>
      simp only [Outline.nodes, List.mem_append, not_or] at hi
      exact (ih' s t _ hi.2).trans (ih _ _ b hi.1)
  | cut rest ih => exact ih s t b.truncate hi

theorem Registered.declare (h : b.Registered f) {scope : ScopeId} {kind : BindingKind}
    {name : String} {nameNode declaration : NodeId}
    (hown : ∀ ident, f.DeclaresFunction declaration ident → ident = some nameNode)
    (hname : b.resolved[nameNode]? = none) (hdecl : b.declared[declaration]? = none) :
    (b.declare scope kind name nameNode declaration).Registered f := by
  have hkept : ∀ {j binding}, b.binding? j = some binding →
      (b.declare scope kind name nameNode declaration).resolved[binding.nameNode]? = some j ∧
        (b.declare scope kind name nameNode declaration).declared[binding.declaration]? =
          some j := by
    intro j binding hj
    have hfound := h hj
    rw [resolved_declare, declared_declare]
    · exact ⟨hfound.resolved, hfound.declared⟩
    · intro heq
      cases hdecl.symm.trans (heq ▸ hfound.declared)
    · intro heq
      cases hname.symm.trans (heq ▸ hfound.resolved)
  intro j binding hj
  have hold : ∀ {old}, b.binding? j = some old → binding.nameNode = old.nameNode →
      binding.declaration = old.declaration →
        (b.declare scope kind name nameNode declaration).Found f j binding := by
    intro old hold hnode hdeclaration
    refine ⟨?_, ?_, ?_⟩
    · rw [hnode, hdeclaration]
      exact (h hold).own
    · rw [hnode]
      exact (hkept hold).1
    · rw [hdeclaration]
      exact (hkept hold).2
  revert hj hold
  unfold Bindings.declare
  extract_lets reused
  cases reused with
  | some i =>
      intro hj hold
      simp only [attach, modifyBinding, binding?, Array.getElem?_modify] at hj
      split at hj
      · rcases Option.map_eq_some_iff.mp hj with ⟨old, hi, rfl⟩
        exact hold hi rfl rfl
      · exact hold hj rfl rfl
  | none =>
      intro hj hold
      by_cases hlt : j < b.bindings.size
      · have hj' : b.binding? j = some binding := by
          simpa [attach, binding?, Array.getElem?_push, Nat.ne_of_lt hlt] using hj
        exact hold hj' rfl rfl
      · have hsize : j = b.bindings.size ∧
            (⟨name, kind, scope, declaration, nameNode, false, false, #[]⟩ : Binding) =
              binding := by
          simp only [attach, binding?, Array.getElem?_push] at hj
          split at hj
          · exact ⟨‹_›, Option.some.inj hj⟩
          · exact absurd (Array.getElem?_eq_some_iff.mp hj).1 hlt
        rcases hsize with ⟨rfl, rfl⟩
        refine ⟨hown, ?_, ?_⟩
        · exact Std.HashMap.getElem?_insert_self
        · exact Std.HashMap.getElem?_insert_self

theorem Registered.play {o : Outline} {s t : ScopeId} (h : b.Registered f)
    (hnested : o.Nested f) (hnames : o.names.Nodup) (hdeclarers : (o.nodes .declarers).Nodup)
    (hname : ∀ i ∈ o.names, b.resolved[i]? = none)
    (hdecl : ∀ i ∈ o.nodes .declarers, b.declared[i]? = none) :
    (o.play s t b).Registered f := by
  induction o generalizing s t b with
  | done => exact h
  | declare hoisted kind name nameNode declaration rest ih =>
      simp only [Outline.names, Outline.nodes, Outline.Part.ofName, List.singleton_append,
        List.nodup_cons, List.forall_mem_cons] at hnames hdeclarers hname hdecl
      refine ih (h.declare (fun ident hi => (hnested.2.1 ident hi).1) hname.1 hdecl.1) hnested.2.2
        hnames.2 hdeclarers.2 ?_ ?_
      · intro i hi
        rw [resolved_declare]
        · exact hname.2 i hi
        · rintro rfl
          exact hnames.1 hi
      · intro i hi
        rw [declared_declare]
        · exact hdecl.2 i hi
        · rintro rfl
          exact hdeclarers.1 hi
  | scope kind node inside rest ih ih' =>
      simp only [Outline.names, Outline.nodes, Outline.Part.ofScope, List.nil_append,
        List.nodup_append', List.forall_mem_append] at hnames hdeclarers hname hdecl
      have hopened : (b.openScope kind (some node) (some s)).2.Registered f := fun j binding hj =>
        ⟨(h hj).own, (h hj).resolved, (h hj).declared⟩
      refine ih' (ih hopened hnested.2.1 hnames.1 hdeclarers.1 hname.1 hdecl.1) hnested.2.2
        hnames.2.1 hdeclarers.2.1 ?_ ?_
      · intro i hi
        rw [Outline.resolved_play _ _ _ _ fun hi' => hnames.2.2 hi' hi]
        exact hname.2 i hi
      · intro i hi
        rw [declared_play _ _ _ _ fun hi' => hdeclarers.2.2 hi' hi]
        exact hdecl.2 i hi
  | vars inside rest ih ih' =>
      simp only [Outline.names, Outline.nodes, List.nodup_append', List.forall_mem_append]
        at hnames hdeclarers hname hdecl
      refine ih' (ih h hnested.1 hnames.1 hdeclarers.1 hname.1 hdecl.1) hnested.2 hnames.2.1
        hdeclarers.2.1 ?_ ?_
      · intro i hi
        rw [Outline.resolved_play _ _ _ _ fun hi' => hnames.2.2 hi' hi]
        exact hname.2 i hi
      · intro i hi
        rw [declared_play _ _ _ _ fun hi' => hdeclarers.2.2 hi' hi]
        exact hdecl.2 i hi
  | cut rest ih =>
      have hcut : b.truncate.Registered f := fun j binding hj =>
        ⟨(h hj).own, (h hj).resolved, (h hj).declared⟩
      exact ih hcut hnested hnames hdeclarers hname hdecl

theorem registered_declarations (hprogram : f.HasProgram root) :
    (declarations f root).Registered f := by
  have hnone : (start root).Registered f := by
    intro j binding hj
    simp [start, openScope, empty, binding?] at hj
  have hnames := placed_outline hprogram .names
  rw [Outline.nodes_names] at hnames
  apply hnone.play
  · exact (Sketch.nests_ofDepth hprogram.wellFormed _).node _
  · exact hnames.1
  · exact (placed_outline hprogram .declarers).1
  · exact fun i _ => Std.HashMap.getElem?_empty
  · exact fun i _ => Std.HashMap.getElem?_empty

/-- What is bound in the end was declared before, up to its uses. -/
theorem exists_declared (hj : (ofForest f (some root)).binding? j = some binding) :
    ∃ old, (declarations f root).binding? j = some old ∧ old.origin = binding.origin := by
  have horigins := congrArg (·[j]?) (sameTables_ofForest f root).origins
  have hj' : (ofForest f (some root)).bindings[j]? = some binding := hj
  simp only [Array.getElem?_map, hj', Option.map_some] at horigins
  exact Option.map_eq_some_iff.mp horigins.symm

/-- What was declared is bound in the end, up to its uses. -/
theorem exists_bound {old : Binding} (hj : (declarations f root).binding? j = some old) :
    ∃ binding, (ofForest f (some root)).binding? j = some binding ∧
      binding.origin = old.origin := by
  have horigins := congrArg (·[j]?) (sameTables_ofForest f root).origins
  have hj' : (declarations f root).bindings[j]? = some old := hj
  simp only [Array.getElem?_map, hj', Option.map_some] at horigins
  exact Option.map_eq_some_iff.mp horigins

theorem mem_declarers_of_declared (h : (declarations f root).declared[d]? = some j) :
    d ∈ (outline f root).nodes .declarers := by
  by_contra hnot
  have hnone : (declarations f root).declared[d]? = none :=
    (declared_play _ _ _ _ hnot).trans Std.HashMap.getElem?_empty
  cases h.symm.trans hnone

theorem within_of_declared (hprogram : f.HasProgram root)
    (h : (declarations f root).declared[d]? = some j) : f.Within d root :=
  ((placed_outline hprogram .declarers).2 d (mem_declarers_of_declared h)).1

theorem within_of_binding (hprogram : f.HasProgram root)
    (hj : (ofForest f (some root)).binding? j = some binding) :
    f.Within binding.declaration root := by
  rcases exists_declared hj with ⟨old, hold, horigin⟩
  have hdeclaration : old.origin.declaration = binding.origin.declaration :=
    congrArg Binding.declaration horigin
  change f.Within binding.origin.declaration root
  rw [← hdeclaration]
  exact within_of_declared hprogram (registered_declarations hprogram hold).declared

theorem within_of_nameNode (hprogram : f.HasProgram root)
    (hj : (declarations f root).binding? j = some binding) :
    f.Within binding.nameNode root := by
  by_contra hout
  have hplaced := placed_outline hprogram .names
  rw [Outline.nodes_names] at hplaced
  have hnot : binding.nameNode ∉ (outline f root).names := fun hmem =>
    hout (hplaced.2 _ hmem).1
  have hnone : (declarations f root).resolved[binding.nameNode]? = none :=
    (Outline.resolved_play _ _ _ _ hnot).trans Std.HashMap.getElem?_empty
  cases (registered_declarations hprogram hj).resolved.symm.trans hnone

/-!
## Functions that are declared once
-/

/-- The chart knows the function by its name, and its scope declares the name only once. -/
structure DeclaredOnce (f : Forest) (root d : NodeId) : Prop where
  function : ∃ ident, f.DeclaresFunction d ident
  named : ∀ i, f.DeclaresFunction d (some i) → i ∈ (outline f root).names →
    (chart f root).named i = some d
  single : (chart f root).Single d

theorem declaredOnce_of_binding (hprogram : f.HasProgram root) {ident : Slot}
    (hj : (declarations f root).binding? j = some binding) (hsingle : binding.redeclared = false)
    (hd : f.DeclaresFunction binding.declaration ident) :
    DeclaredOnce f root binding.declaration := by
  have hregistered := registered_declarations hprogram
  have hcharted := (charted_declarations hprogram).1
  have hfound := hregistered hj
  refine ⟨⟨ident, hd⟩, ?_, ?_⟩
  · intro i hi _
    obtain rfl := Option.some.inj (hfound.own _ hi)
    rw [hcharted.named, hfound.resolved, Option.bind_some, declares, entry_of_binding hj]
    rfl
  · intro x name e he hdecl
    cases hopened : (declarations f root).opened[x]? with
    | none =>
        rw [(hcharted.blank hopened).2] at he
        cases he
    | some s =>
        rw [hcharted.table (hcharted.opened.mpr hopened)] at he
        rcases Option.bind_eq_some_iff.mp he with ⟨k, _, hentry⟩
        rcases Option.map_eq_some_iff.mp hentry with ⟨other, hk, rfl⟩
        have hdeclared := (hregistered hk).declared
        change other.declaration = _ at hdecl
        rw [hdecl, hfound.declared] at hdeclared
        obtain rfl := Option.some.inj hdeclared
        obtain rfl := Option.some.inj (hj.symm.trans hk)
        exact hsingle

theorem DeclaredOnce.kept {g : Forest} (h : DeclaredOnce f root d) (hkept : Kept f g root none id)
    (hf : f.HasProgram root) : DeclaredOnce g root d := by
  have hsame := hkept.same_outline hf
  have hfunction : ∀ {ident}, g.DeclaresFunction d ident ↔ f.DeclaresFunction d ident := by
    intro ident
    rcases h.function with ⟨_, _, _, _, _, hn⟩
    rcases hkept.node hn with ⟨n', hn', hrevision⟩
    rcases hrevision.same_or_expression with rfl | ⟨_, _, heq, _⟩
    · rw [DeclaresFunction, DeclaresFunction, hn, hn']
    · cases heq
  refine ⟨?_, ?_, ?_⟩
  · rcases h.function with ⟨ident, hd⟩
    exact ⟨ident, hfunction.mpr hd⟩
  · intro i hi hmem
    rw [hkept.chart_eq hf]
    exact h.named i (hfunction.mp hi) (hsame.names_eq ▸ hmem)
  · rw [hkept.chart_eq hf]
    exact h.single

/-!
## References
-/

variable {old : Binding} {stop : Stop} {stops : List Stop} {scope : ScopeId} {inWith : Bool}
  {kind : ReferenceKind} {name : String}

theorem exists_grown_modifyBinding (hj : b.binding? j = some old) (k : BindingId)
    {change : Binding → Binding} (hchange : ∀ binding : Binding, binding.Grows (change binding)) :
    ∃ new, (b.modifyBinding k change).binding? j = some new ∧ old.Grows new := by
  have hj' : b.bindings[j]? = some old := hj
  by_cases hk : k = j
  · refine ⟨change old, ?_, hchange old⟩
    simp [modifyBinding, binding?, Array.getElem?_modify, hk, hj']
  · refine ⟨old, ?_, .refl old⟩
    simp [modifyBinding, binding?, Array.getElem?_modify, hk, hj']

theorem exists_grown_apply (hj : b.binding? j = some old) (stop : Stop) :
    ∃ new, (stop.apply b).binding? j = some new ∧ old.Grows new := by
  have hsame : ∀ {c : Bindings}, c.bindings = b.bindings → c.binding? j = some old :=
    fun hc => (congrArg (·[j]?) hc).trans hj
  cases stop with
  | use scope inWith kind name node =>
      change ∃ new, (b.addReference scope inWith kind name node).binding? j = some new ∧ _
      unfold addReference
      extract_lets c
      have hc : c.bindings = b.bindings := by
        change (if inWith then _ else _ : Bindings).bindings = _
        split <;> rfl
      split
      · exact ⟨old, hsame hc, .refl old⟩
      · refine exists_grown_modifyBinding (hsame ?_) _ fun binding => ⟨fun r hr => ?_, fun hd => ?_⟩
        · exact hc
        · exact Array.mem_push_of_mem _ hr
        · exact Bool.or_eq_true_iff.mpr (Or.inl hd)
  | mark inWith nameNode =>
      change ∃ new, (b.markDynamic inWith nameNode).binding? j = some new ∧ _
      unfold markDynamic
      split
      · cases b.resolve nameNode with
        | none => exact ⟨old, hj, .refl old⟩
        | some k =>
            exact exists_grown_modifyBinding hj k fun _ => ⟨fun _ hr => hr, fun _ => Eq.refl true⟩
      · exact ⟨old, hj, .refl old⟩
  | cut => exact ⟨old, hj, .refl old⟩

theorem exists_grown_after (hj : b.binding? j = some old) (stops : List Stop) :
    ∃ new, (b.after stops).binding? j = some new ∧ old.Grows new := by
  induction stops generalizing b old with
  | nil => exact ⟨old, hj, .refl old⟩
  | cons stop stops ih =>
      rcases exists_grown_apply hj stop with ⟨mid, hmid, hgrows⟩
      rcases ih hmid with ⟨new, hnew, hgrows'⟩
      exact ⟨new, hnew, hgrows.trans hgrows'⟩

/-- What a stop does to a binding is not undone by the later ones. -/
theorem exists_grown_of_mem (hj : b.binding? j = some old) (hmem : stop ∈ stops)
    {P : Binding → Prop} (hP : ∀ {binding new : Binding}, P binding → binding.Grows new → P new)
    (hstop : ∀ before ⊆ stops, ∀ binding, (b.after before).binding? j = some binding →
      ∃ new, (stop.apply (b.after before)).binding? j = some new ∧ P new) :
    ∃ new, (b.after stops).binding? j = some new ∧ P new := by
  rcases List.append_of_mem hmem with ⟨before, rest, rfl⟩
  rcases exists_grown_after hj before with ⟨mid, hmid, _⟩
  rcases hstop before (List.subset_append_left _ _) mid hmid with ⟨binding, hbinding, hp⟩
  rcases exists_grown_after hbinding rest with ⟨new, hnew, hgrows⟩
  refine ⟨new, ?_, hP hp hgrows⟩
  rw [after_append]
  exact hnew

/-- A use is recorded with the binding that it finds. -/
theorem binding?_addReference (hlookup : b.lookup scope name = some j)
    (hj : b.binding? j = some old) :
    (b.addReference scope inWith kind name i).binding? j =
      some { old with
        references := old.references.push ⟨i, kind⟩
        dynamic := old.dynamic || inWith } := by
  have hsame (set) : Bindings.lookup { b with dynamicNames := set } scope name =
      b.lookup scope name := by
    have h : b.SameTables { b with dynamicNames := set } := ⟨⟨rfl, rfl⟩, rfl, rfl, rfl⟩
    exact h.lookup scope name
  have hbinding : b.bindings[j]? = some old := hj
  unfold addReference
  cases inWith <;>
    simp [hsame, hlookup, modifyBinding, binding?, Array.getElem?_modify, hbinding]

/-- The binding has the reference. -/
def ReferredBy (b : Bindings) (j : BindingId) (r : Reference) : Prop :=
  ∃ binding, b.binding? j = some binding ∧ r ∈ binding.references

theorem referredBy_after (hmem : .use scope inWith kind name i ∈ stops)
    (hlookup : b.lookup scope name = some j) (hj : b.binding? j = some old) :
    (b.after stops).ReferredBy j ⟨i, kind⟩ := by
  refine exists_grown_of_mem hj hmem (fun hr hgrows => hgrows.references _ hr) ?_
  intro before _ binding hbinding
  refine ⟨_, binding?_addReference ?_ hbinding, Array.mem_push_self⟩
  rw [(b.sameTables_after before).lookup, hlookup]

/-- A name is found in a scope that declares it. -/
theorem exists_of_lookupFrom {name : String} {steps : Nat} {s : Option ScopeId}
    (h : b.lookupFrom name steps s = some j) :
    ∃ t : ScopeId, b.names[(t, name)]? = some j := by
  induction steps generalizing s with
  | zero => cases h
  | succ steps ih =>
      cases s with
      | none => cases h
      | some t =>
          rw [lookupFrom] at h
          cases hname : b.names[(t, name)]? with
          | none =>
              rw [hname] at h
              exact ih h
          | some k =>
              rw [hname] at h
              obtain rfl := Option.some.inj h
              exact ⟨t, hname⟩

section Program

variable (hprogram : f.HasProgram root) (hwhole : (ofForest f (some root)).truncated = false)

include hprogram hwhole

theorem referredBy_of_used {kind : ReferenceKind} {name : String} (h : Used f root kind name i)
    (hj : (ofForest f (some root)).resolve (some i) = some j) :
    (ofForest f (some root)).ReferredBy j ⟨i, kind⟩ := by
  rcases (mem_route_iff hwhole).mpr h with ⟨scope, inWith, hmem⟩
  rw [resolve_of_mem_route hprogram.wellFormed hprogram.parent hwhole hmem] at hj
  rcases exists_of_lookupFrom hj with ⟨s, hname⟩
  rcases ((charted_declarations hprogram).1.known hname).2 with ⟨old, hold, _⟩
  rw [ofForest_eq]
  exact referredBy_after hmem hj hold

/-- No used name stands for the node. -/
def Unused (f : Forest) (root d : NodeId) : Prop :=
  ∀ ⦃i kind name⦄, Used f root kind name i → declarationOf f root i ≠ some d

omit hwhole in
theorem binding_of_declarationOf (h : declarationOf f root i = some d) :
    ∃ j, (ofForest f (some root)).resolve (some i) = some j ∧
      (ofForest f (some root)).declared[d]? = some j := by
  have hsame := sameTables_ofForest f root
  rw [declarationOf_eq] at h
  rcases Option.bind_eq_some_iff.mp h with ⟨j, hj, hdeclares⟩
  rcases Option.map_eq_some_iff.mp hdeclares with ⟨e, hentry, rfl⟩
  rcases Option.map_eq_some_iff.mp hentry with ⟨binding, hbinding, rfl⟩
  refine ⟨j, hj, ?_⟩
  rw [hsame.declared]
  exact (registered_declarations hprogram hbinding).declared

theorem unused_of_references
    (hunused : ((ofForest f (some root)).ofDeclaration (some d)).any fun j =>
      ((ofForest f (some root)).references j).isEmpty) : Unused f root d := by
  intro i kind name hi hdecl
  rcases binding_of_declarationOf hprogram hdecl with ⟨j, hj, hdeclared⟩
  rcases referredBy_of_used hprogram hwhole hi hj with ⟨binding, hbinding, hr⟩
  have hreferences : ((ofForest f (some root)).references j).isEmpty = true := by
    have hof : (ofForest f (some root)).ofDeclaration (some d) = some j := hdeclared
    rw [hof] at hunused
    exact hunused
  rw [references, hbinding, Option.map_some, Option.getD_some, List.isEmpty_iff] at hreferences
  have hmem := Array.mem_toList_iff.mpr hr
  rw [hreferences] at hmem
  cases hmem

end Program

end Bindings

/-!
## Declarators
-/

/-- A statement declares variables, and this is one of its declarators. -/
def Forest.DeclaredBy (f : Forest) (d i : NodeId) : Prop :=
  ∃ kind declarators, f.node? (some i) = some (.variableStatement kind declarators) ∧
    some d ∈ declarators

/-- A declarator belongs to a statement and has a name for its target. Other nodes are not asked
for. -/
def Forest.NamesTarget (f : Forest) (d : NodeId) : Prop :=
  ∀ target initializer, f.node? (some d) = some (.declarator target initializer) →
    (∃ text, f.node? target = some (.name .identifier text)) ∧ ∃ i, f.DeclaredBy d i

theorem Forest.namesTarget_of_ne {f : Forest} {d : NodeId} {n : Node Slot}
    (hn : f.node? (some d) = some n)
    (hother : ∀ target initializer, n ≠ .declarator target initializer) : f.NamesTarget d :=
  fun _ _ hd => absurd (Option.some.inj (hn.symm.trans hd)) (hother _ _)

/-- Declarators that declare something declare a single name. -/
def Outline.NamesTargets (f : Forest) (o : Outline) : Prop :=
  ∀ d ∈ o.nodes .declarers, f.NamesTarget d

namespace Outline.NamesTargets

variable {f : Forest} {o o' : Outline}

theorem done : NamesTargets f .done :=
  nofun

theorem append (h : o.NamesTargets f) (h' : o'.NamesTargets f) : (o ++ o').NamesTargets f := by
  rw [NamesTargets, nodes_append, List.forall_mem_append]
  exact ⟨h, h'⟩

theorem concat {α : Type} {items : List α} {o : α → Outline}
    (h : ∀ a ∈ items, (o a).NamesTargets f) :
    (Outline.concat (items.map o)).NamesTargets f := by
  induction items with
  | nil => exact done
  | cons a items ih =>
      rw [List.forall_mem_cons] at h
      exact append h.1 (ih h.2)

theorem ite {c : Prop} [Decidable c] (h : o.NamesTargets f) (h' : o'.NamesTargets f) :
    (if c then o else o').NamesTargets f := by
  split
  · exact h
  · exact h'

theorem scope {kind : ScopeKind} {i : NodeId} (h : o.NamesTargets f) :
    (Outline.scope kind i o .done).NamesTargets f := by
  intro d hd
  rw [nodes, List.mem_append, List.mem_append] at hd
  rcases hd with hd | hd | hd
  · cases hd
  · exact h d hd
  · cases hd

theorem vars (h : o.NamesTargets f) : (Outline.vars o .done).NamesTargets f := by
  intro d hd
  rw [nodes, List.mem_append] at hd
  exact h d (hd.resolve_right List.not_mem_nil)

theorem nameOf {kind : BindingKind} {s : Slot} {i : NodeId} (hi : f.NamesTarget i) :
    (Sketch.nameOf f kind s i).NamesTargets f := by
  unfold Sketch.nameOf
  split
  · intro d hd
    rwa [List.mem_singleton.mp hd]
  · exact done

end Outline.NamesTargets

namespace Sketch

open Outline (NamesTargets)

variable {f : Forest} {k : Sketch} {i : NodeId} {n : Node Slot}

/-- The pattern is the target of the declarator that it belongs to, if it belongs to one. -/
def OfTarget (f : Forest) (D : Option NodeId) (s : Slot) : Prop :=
  ∀ d, D = some d → s = some d ∨ ∀ target initializer,
    f.node? (some d) = some (.declarator target initializer) →
      target = s ∧ ∃ i, f.DeclaredBy d i

/-- The outlines of what lies one level deeper. -/
structure NamesTargets (f : Forest) (k : Sketch) : Prop where
  node : ∀ s, (k.node s).NamesTargets f
  pattern : ∀ {names D s}, OfTarget f D s → (k.pattern names D s).NamesTargets f

theorem NamesTargets.nodes (h : k.NamesTargets f) (slots : List Slot) :
    (k.nodes slots).NamesTargets f :=
  .concat fun s _ => h.node s

theorem NamesTargets.block (h : k.NamesTargets f) (s : Slot) {o : Outline}
    (ho : o.NamesTargets f) :
    (match f.node? s with
      | some (.body .block statements) => k.nodes statements
      | some _ => o
      | none => .done).NamesTargets f := by
  split
  · exact h.nodes _
  · exact ho
  · exact .done

theorem NamesTargets.ofNode (h : k.NamesTargets f) (hn : f.node? (some i) = some n) :
    (k.ofNode f i n).NamesTargets f := by
  have hchildren : (k.children n).NamesTargets f := .concat fun c _ => h.node (some c)
  unfold Sketch.ofNode
  split
  · have hi : f.NamesTarget i := namesTarget_of_ne hn nofun
    refine .append (.ite (.nameOf hi) .done) (.scope (.append (.ite (.nameOf hi) .done) ?_))
    exact .append (.concat fun s _ => h.pattern nofun) (h.block _ (h.node _))
  · rename_i kind declarators
    have hdeclarators : ∀ names, ∀ s ∈ declarators, (k.declarator f names s).NamesTargets f := by
      intro names s hs
      unfold Sketch.declarator
      split
      · rename_i hd
        refine .append (h.pattern ?_) (h.node _)
        rintro _ ⟨⟩
        refine .inr fun target initializer hd' => ⟨?_, i, kind, declarators, hn, hs⟩
        exact (Node.declarator.inj (Option.some.inj (hd'.symm.trans hd))).1
      · exact .done
    exact .vars (.concat fun s hs => hdeclarators _ s hs)
  · have hi : f.NamesTarget i := namesTarget_of_ne hn nofun
    exact .ite (.scope (.append (.nameOf hi) hchildren)) (.append (.nameOf hi) hchildren)
  · exact .scope (h.nodes _)
  · exact .scope (h.nodes _)
  · exact .scope hchildren
  · exact .scope hchildren
  · exact .append (h.node _) (.scope (h.nodes _))
  · refine .scope (.append (h.pattern ?_) ?_)
    · exact fun d hd => .inl hd
    · split
      · exact h.nodes _
      · exact .done
  · exact hchildren

/-- No declarator has an expression with a default value for its target. -/
def PlainTargets (f : Forest) : Prop :=
  ∀ ⦃d target initializer⦄, f.node? (some d) = some (.declarator target initializer) →
    ∀ left operator right, f.node? target ≠ some (.binary .default left operator right)

theorem NamesTargets.ofPattern (h : k.NamesTargets f) (hplain : PlainTargets f)
    (hn : f.node? (some i) = some n) {names : NameKind} {D : Option NodeId}
    (hD : OfTarget f D (some i)) : (k.ofPattern names D i n).NamesTargets f := by
  unfold Sketch.ofPattern
  split
  · intro d hd
    obtain rfl := (List.mem_singleton.mp hd)
    cases D with
    | none => exact namesTarget_of_ne hn nofun
    | some d =>
        rcases hD d rfl with heq | htarget
        · obtain rfl := Option.some.inj heq
          exact namesTarget_of_ne hn nofun
        · intro target initializer hd
          obtain ⟨rfl, hdeclared⟩ := htarget target initializer hd
          exact ⟨⟨_, hn⟩, hdeclared⟩
  · exact .concat fun s _ => h.pattern nofun
  · exact .concat fun s _ => h.pattern nofun
  · exact .append (.ite (h.node _) .done) (h.pattern nofun)
  · refine .append (h.pattern fun d hd => .inr fun target initializer hnode => ?_) (h.node _)
    rcases hD d hd with heq | htarget
    · obtain rfl := Option.some.inj heq
      cases hn.symm.trans hnode
    · obtain ⟨rfl, -⟩ := htarget target initializer hnode
      exact absurd hn (hplain hnode _ _ _)
  · exact h.pattern nofun
  · exact .done

theorem namesTargets_ofDepth (hplain : PlainTargets f) (depth : Nat) :
    (ofDepth f depth).NamesTargets f := by
  induction depth with
  | zero => exact ⟨fun _ => .done, fun _ => .done⟩
  | succ depth ih =>
      constructor
      · intro s
        unfold ofDepth
        dsimp only
        split
        · exact ih.ofNode ‹_›
        · exact .done
      · intro names D s hD
        unfold ofDepth
        dsimp only
        split
        · exact ih.ofPattern hplain ‹_› hD
        · exact .done

end Sketch

/-- The declarator of a binding belongs to a statement and has a name for its target. -/
theorem Bindings.namesTarget_of_binding {f : Forest} {root : NodeId} {j : BindingId}
    {binding : Binding} (hprogram : f.HasProgram root) (hplain : Sketch.PlainTargets f)
    (hj : (ofForest f (some root)).binding? j = some binding) :
    f.NamesTarget binding.declaration := by
  rcases exists_declared hj with ⟨old, hold, horigin⟩
  have hdeclaration : old.declaration = binding.declaration :=
    (congrArg Binding.declaration horigin :)
  rw [← hdeclaration]
  exact (Sketch.namesTargets_ofDepth hplain _).node _ _
    (mem_declarers_of_declared (registered_declarations hprogram hold).declared)

end Untangle
