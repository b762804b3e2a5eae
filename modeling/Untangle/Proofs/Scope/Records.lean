import Untangle.Proofs.Scope.Declarations
import Untangle.Proofs.Scope.Lookup

/-!
# Exact records

The references of the bindings are the names that are used, each recorded once and with the
binding that it resolves to. All other identifiers that resolve are names of declarations.

The walk that resolves names comes to each name once. A binding gets one reference for each use
that finds it, in the order of the walk, and keeps the references that it had.
-/

namespace Untangle
open Forest

/-!
## Uses on an itinerary
-/

namespace Node

variable {n : Node Slot} {o : Outlook} {i : NodeId} {p : Purpose}

/-- A node uses no other name than itself, and only once. -/
theorem users_stops (n : Node Slot) (o : Outlook) (i : NodeId) (p : Purpose) :
    (n.stops o i p).filterMap Stop.user? = [] ∨ (n.stops o i p).filterMap Stop.user? = [i] := by
  unfold Node.stops
  split
  · split
    · exact Or.inr rfl
    · exact Or.inl rfl
  · exact Or.inl rfl
  · exact Or.inl rfl

end Node

namespace Forest

variable {f : Forest} {opened : NodeId → Option ScopeId} {depth : Nat} {p : Purpose}
  {o : Outlook} {s : Slot} {w : NodeId}

theorem users_itinerary_none : (f.itinerary opened depth p o none).filterMap Stop.user? = [] := by
  cases depth <;> rfl

/-- Names are used in the subtree that the walk is in. -/
theorem within_of_user (hf : f.WellFormed)
    (hw : w ∈ (f.itinerary opened depth p o s).filterMap Stop.user?) :
    ∃ i, s = some i ∧ f.Within w i := by
  induction depth generalizing p o s with
  | zero => cases hw
  | succ depth ih =>
      cases s with
      | none =>
          rw [users_itinerary_none] at hw
          cases hw
      | some i =>
          refine ⟨i, rfl, ?_⟩
          cases hn : f.node? (some i) with
          | none =>
              rw [itinerary_missing hn] at hw
              cases hw
          | some n =>
              cases hq : n.again? p with
              | some q =>
                  rw [itinerary_again hn hq] at hw
                  rcases ih hw with ⟨_, ⟨⟩, hwithin⟩
                  exact hwithin
              | none =>
                  rw [itinerary_here hn hq, List.filterMap_append, List.filterMap_flatMap,
                    List.mem_append, List.mem_flatMap] at hw
                  rcases hw with hw | ⟨e, he, hw⟩
                  · rcases n.users_stops (o.enter (opened i) p) i p with hnone | hone
                    · rw [hnone] at hw
                      cases hw
                    · rw [hone, List.mem_singleton] at hw
                      exact hw ▸ .refl
                  · rcases ih hw with ⟨c, hc, hwithin⟩
                    exact hwithin.tail (hf.link_of_errand hn he hc)

/-- Errands of one node lead to different children. -/
theorem pairwise_errands {i : NodeId} {n : Node Slot} (hf : f.WellFormed)
    (hn : f.node? (some i) = some n) :
    (n.errands p).Pairwise fun e e' => ∀ c ∈ e.slot, ∀ c' ∈ e'.slot, c ≠ c' := by
  have hchildren := hf.nodup i
  rw [children_of_node? hn] at hchildren
  have hsub := (n.slots_errands p).filterMap id
  rw [List.filterMap_map] at hsub
  exact List.pairwise_filterMap.mp (hchildren.sublist hsub)

/-- No name is used twice. -/
theorem nodup_users (hf : f.WellFormed) :
    ((f.itinerary opened depth p o s).filterMap Stop.user?).Nodup := by
  induction depth generalizing p o s with
  | zero => exact List.nodup_nil
  | succ depth ih =>
      cases s with
      | none =>
          rw [users_itinerary_none]
          exact List.nodup_nil
      | some i =>
          cases hn : f.node? (some i) with
          | none =>
              rw [itinerary_missing hn]
              exact List.nodup_nil
          | some n =>
              cases hq : n.again? p with
              | some q =>
                  rw [itinerary_again hn hq]
                  exact ih
              | none =>
                  rw [itinerary_here hn hq, List.filterMap_append, List.filterMap_flatMap]
                  refine List.Nodup.append ?_ ?_ ?_
                  · rcases n.users_stops (o.enter (opened i) p) i p with hnone | hone
                    · rw [hnone]
                      exact List.nodup_nil
                    · rw [hone]
                      exact List.nodup_singleton i
                  · refine List.nodup_flatMap.mpr ⟨fun e _ => ih, ?_⟩
                    refine (pairwise_errands hf hn).imp_of_mem fun {e e'} he he' hne w hw hw' => ?_
                    rcases within_of_user hf hw with ⟨c, hc, hwithin⟩
                    rcases within_of_user hf hw' with ⟨c', hc', hwithin'⟩
                    exact hne c hc c' hc' (hf.siblings_disjoint (hf.link_of_errand hn he hc)
                      (hf.link_of_errand hn he' hc') hwithin hwithin')
                  · intro w hw hw'
                    have hi : w = i := by
                      rcases n.users_stops (o.enter (opened i) p) i p with hnone | hone
                      · rw [hnone] at hw
                        cases hw
                      · rw [hone, List.mem_singleton] at hw
                        exact hw
                    rcases List.mem_flatMap.mp hw' with ⟨e, he, hw'⟩
                    rcases within_of_user hf hw' with ⟨c, hc, hwithin⟩
                    exact hf.not_within_of_link (hf.link_of_errand hn he hc) (hi ▸ hwithin)

end Forest

/-!
## References
-/

namespace Bindings

variable {b : Bindings} {j : BindingId}

/-- The reference to a binding that a stop adds. -/
def referenceTo (b : Bindings) (j : BindingId) : Stop → Option Reference
  | .use scope _ kind name node =>
      if b.lookup scope name = some j then some ⟨node, kind⟩ else none
  | _ => none

theorem references_of_bindings {b' : Bindings} (h : b'.bindings = b.bindings) (j : BindingId) :
    b'.references j = b.references j := by
  rw [references, references, binding?, binding?, h]

theorem references_modifyBinding {change : Binding → Binding}
    (hchange : ∀ binding, (change binding).references = binding.references) (k : BindingId) :
    (b.modifyBinding k change).references j = b.references j := by
  rw [references, references, modifyBinding, binding?, binding?, Array.getElem?_modify]
  split
  · cases b.bindings[j]? with
    | none => rfl
    | some binding => simp [hchange]
  · rfl

theorem references_addReference (hj : j < b.bindings.size) (scope : ScopeId) (inWith : Bool)
    (kind : ReferenceKind) (name : String) (node : NodeId) :
    (b.addReference scope inWith kind name node).references j =
      b.references j ++ (b.referenceTo j (.use scope inWith kind name node)).toList := by
  unfold addReference referenceTo
  extract_lets c
  have hc : c.bindings = b.bindings := by
    change (if inWith then _ else _ : Bindings).bindings = _
    split <;> rfl
  have hlookup : c.lookup scope name = b.lookup scope name := by
    have hsame : b.SameTables c := by
      change b.SameTables (if inWith then _ else _)
      split <;> exact ⟨⟨rfl, rfl⟩, rfl, rfl, rfl⟩
    exact hsame.lookup scope name
  dsimp only
  rw [hlookup]
  cases hk : b.lookup scope name with
  | none => simpa using references_of_bindings hc j
  | some k =>
      by_cases hkj : k = j
      · subst hkj
        have hbinding : c.bindings[k]? = some b.bindings[k] := by
          rw [hc]
          exact Array.getElem?_eq_getElem hj
        simp [references, binding?, modifyBinding, Array.getElem?_modify, hbinding, hj]
      · simp [references, binding?, modifyBinding, Array.getElem?_modify, hkj, hc]

theorem references_apply (hj : j < b.bindings.size) (stop : Stop) :
    (stop.apply b).references j = b.references j ++ (b.referenceTo j stop).toList := by
  cases stop with
  | use scope inWith kind name node => exact references_addReference hj ..
  | mark inWith nameNode =>
      have hmark : (b.markDynamic inWith nameNode).references j = b.references j := by
        unfold markDynamic
        split
        · cases b.resolve nameNode with
          | none => rfl
          | some k =>
              refine references_modifyBinding ?_ k
              exact fun _ => rfl
        · rfl
      exact hmark.trans (List.append_nil _).symm
  | cut => exact (List.append_nil _).symm

/-- A binding has the references that it had and one for each stop that uses it. -/
theorem references_after (hj : j < b.bindings.size) (stops : List Stop) :
    (b.after stops).references j = b.references j ++ stops.filterMap (b.referenceTo j) := by
  induction stops generalizing b with
  | nil => exact (List.append_nil _).symm
  | cons stop stops ih =>
      have hsame := b.sameTables_apply stop
      have hsize : j < (stop.apply b).bindings.size := by
        have horigins := congrArg Array.size hsame.origins
        rw [Array.size_map, Array.size_map] at horigins
        rwa [horigins]
      have hfound : (stop.apply b).referenceTo j = b.referenceTo j := by
        funext stop'
        cases stop' with
        | use scope inWith kind name node => simp only [referenceTo, hsame.lookup]
        | mark _ _ => rfl
        | cut => rfl
      change ((stop.apply b).after stops).references j = _
      rw [ih hsize, references_apply hj, hfound, List.append_assoc, List.filterMap_cons]
      cases b.referenceTo j stop <;> rfl

/-- The names of references are used. -/
theorem user?_of_referenceTo {stop : Stop} {r : Reference} (h : b.referenceTo j stop = some r) :
    stop.user? = some r.node := by
  cases stop with
  | use scope inWith kind name node =>
      rw [referenceTo] at h
      split at h
      · cases h
        rfl
      · cases h
  | mark _ _ => cases h
  | cut => cases h

theorem nodes_references (stops : List Stop) :
    ((stops.filterMap (b.referenceTo j)).map Reference.node).Sublist
      (stops.filterMap Stop.user?) := by
  induction stops with
  | nil => exact .slnil
  | cons stop stops ih =>
      cases hr : b.referenceTo j stop with
      | none =>
          rw [List.filterMap_cons_none hr]
          exact ih.trans ((List.sublist_cons_self stop stops).filterMap _)
      | some r =>
          rw [List.filterMap_cons_some hr, List.filterMap_cons_some (user?_of_referenceTo hr)]
          exact ih.cons_cons _

/-- A stop refers to one binding only. -/
theorem referenceTo_unique {stop : Stop} {k : BindingId} {r r' : Reference}
    (h : b.referenceTo j stop = some r) (h' : b.referenceTo k stop = some r') : j = k := by
  cases stop with
  | use scope inWith kind name node =>
      rw [referenceTo] at h h'
      split at h
      · rename_i hj
        split at h'
        · rename_i hk
          exact Option.some.inj (hj.symm.trans hk)
        · cases h'
      · cases h
  | mark _ _ => cases h
  | cut => cases h

/-- When no name is used twice, different bindings have different references. -/
theorem disjoint_references {stops : List Stop} (hstops : (stops.filterMap Stop.user?).Nodup)
    {k : BindingId} (hne : j ≠ k) :
    ((stops.filterMap (b.referenceTo j)).map Reference.node).Disjoint
      ((stops.filterMap (b.referenceTo k)).map Reference.node) := by
  intro w hw hw'
  rcases List.mem_map.mp hw with ⟨r, hr, hnode⟩
  rcases List.mem_map.mp hw' with ⟨r', hr', hnode'⟩
  rcases List.mem_filterMap.mp hr with ⟨stop, hstop, hto⟩
  rcases List.mem_filterMap.mp hr' with ⟨stop', hstop', hto'⟩
  have huser := user?_of_referenceTo hto
  have huser' := user?_of_referenceTo hto'
  rw [hnode] at huser
  rw [hnode'] at huser'
  obtain rfl := eq_of_nodup_filterMap hstops hstop hstop' huser huser'
  exact hne (referenceTo_unique hto hto')

end Bindings

/-!
## Records of a tree
-/

namespace Bindings

variable {f : Forest} {root i : NodeId} {j k : BindingId} {binding binding' : Binding}
  {r : Reference}

/-- The identifier is declared with the name of the binding, in the scope of the binding and not
for the first time. -/
structure NamesAgain (f : Forest) (root : NodeId) (binding : Binding) (i : NodeId) : Prop where
  declares : f.Declares i
  node : f.node? (some i) = some (.name .identifier binding.name)
  made : ∃ d ∈ declarationsMade f root, d.nameNode = i ∧ binding.Redeclares d

/-- The first binding is that of the name of a function expression, the second one that of a
parameter of the same function. -/
def NameAndParameter (f : Forest) (binding parameter : Binding) : Prop :=
  binding.kind = .functionName ∧ parameter.kind = .parameter ∧
    f.OwnName binding.declaration binding.nameNode ∧
    f.InParameter binding.declaration parameter.nameNode

/-- The records of the bindings of a tree agree with each other and with the tree. -/
structure Exact (f : Forest) (root : NodeId) (b : Bindings) : Prop where
  /-- References are names that resolve to the binding. -/
  reference : ∀ {j binding}, b.binding? j = some binding → ∀ r ∈ binding.references,
    f.node? (some r.node) = some (.name .identifier binding.name) ∧
      b.resolve (some r.node) = some j
  /-- No node occurs in two references. -/
  distinct : ((b.bindings.toList.flatMap fun binding => binding.references.toList).map
    Reference.node).Nodup
  /-- A binding is found from its name and from its declaration. -/
  found : ∀ {j binding}, b.binding? j = some binding →
    b.resolve (some binding.nameNode) = some j ∧ b.ofDeclaration (some binding.declaration) = some j
  /-- The name of a binding is no reference. -/
  unreferenced : ∀ {j binding}, b.binding? j = some binding → ∀ other ∈ b.bindings,
    ∀ r ∈ other.references, r.node ≠ binding.nameNode
  /-- What resolves to a binding is its name, its name in another declaration, or a reference. -/
  resolved : ∀ {i j}, b.resolve (some i) = some j → ∃ binding, b.binding? j = some binding ∧
    (i = binding.nameNode ∨ NamesAgain f root binding i ∨
      ∃ r ∈ binding.references, r.node = i)
  /-- Two bindings share scope and name only in a function expression. -/
  apart : ∀ {j k binding binding'}, b.binding? j = some binding → b.binding? k = some binding' →
    j ≠ k → binding.scope = binding'.scope → binding.name = binding'.name →
      NameAndParameter f binding binding' ∨ NameAndParameter f binding' binding

/-!
## References
-/

theorem references_declarations (hf : f.WellFormed) (root : NodeId) (j : BindingId) :
    (declarations f root).references j = [] := by
  rw [references]
  cases hj : (declarations f root).binding? j with
  | none => rfl
  | some binding => simp [(declared_declarations hf root).unused hj]

/-- The references of a binding are the stops of the walk that use it. -/
theorem references_ofForest (hf : f.WellFormed)
    (hj : (ofForest f (some root)).binding? j = some binding) :
    binding.references.toList = (route f root).filterMap ((declarations f root).referenceTo j) := by
  have hlt : j < (declarations f root).bindings.size := by
    rcases exists_declared hj with ⟨old, hold, _⟩
    exact (Array.getElem?_eq_some_iff.mp hold).1
  have hreferences : (ofForest f (some root)).references j = binding.references.toList := by
    rw [references, hj]
    rfl
  rw [← hreferences, ofForest_eq, references_after hlt, references_declarations hf root,
    List.nil_append]

/-- A reference is the use of a name that finds the binding. -/
theorem exists_use (hf : f.WellFormed) (hj : (ofForest f (some root)).binding? j = some binding)
    (hr : r ∈ binding.references) :
    ∃ scope inWith name, .use scope inWith r.kind name r.node ∈ route f root ∧
      (declarations f root).lookup scope name = some j := by
  rw [← Array.mem_toList_iff, references_ofForest hf hj] at hr
  rcases List.mem_filterMap.mp hr with ⟨stop, hstop, hto⟩
  cases stop with
  | use scope inWith kind name node =>
      rw [referenceTo] at hto
      split at hto
      · obtain rfl := Option.some.inj hto
        exact ⟨scope, inWith, name, hstop, ‹_›⟩
      · cases hto
  | mark _ _ => cases hto
  | cut => cases hto

theorem distinct_references (hf : f.WellFormed) (root : NodeId) :
    (((ofForest f (some root)).bindings.toList.flatMap fun binding =>
      binding.references.toList).map Reference.node).Nodup := by
  have hroute : ((route f root).filterMap Stop.user?).Nodup := nodup_users hf
  rw [List.map_flatMap, List.nodup_flatMap]
  constructor
  · intro binding hbinding
    rcases List.mem_iff_getElem?.mp hbinding with ⟨j, hj⟩
    rw [references_ofForest hf (j := j) (by simpa [binding?] using hj)]
    exact hroute.sublist (nodes_references _)
  · refine List.pairwise_iff_getElem.mpr fun j k hj hk hlt => ?_
    have hbinding : ∀ k (hk : k < (ofForest f (some root)).bindings.toList.length),
        (ofForest f (some root)).binding? k = some (ofForest f (some root)).bindings.toList[k] :=
      fun k hk => by simp [binding?]
    change List.Disjoint (List.map _ _) (List.map _ _)
    rw [references_ofForest hf (hbinding j hj), references_ofForest hf (hbinding k hk)]
    exact disjoint_references hroute (Nat.ne_of_lt hlt)

/-!
## Names
-/

theorem declares_of_resolved (hi : (declarations f root).resolved[i]? = some j) :
    f.Declares i := by
  by_contra hnot
  cases hi.symm.trans (resolved_of_not_declares hnot)

/-- What a declaration resolves to is found in the end, with the names that it had. -/
theorem names_of_resolved (hf : f.WellFormed)
    (hi : (declarations f root).resolved[i]? = some j) :
    ∃ binding, (ofForest f (some root)).binding? j = some binding ∧
      (i = binding.nameNode ∨ NamesAgain f root binding i) := by
  rcases (declared_declarations hf root).resolved hi with ⟨old, hold, hnames⟩
  rcases exists_bound hold with ⟨binding, hbinding, horigin⟩
  refine ⟨binding, hbinding, hnames.imp (fun hname => ?_) ?_⟩
  · exact hname.trans (congrArg Binding.nameNode horigin :).symm
  · rintro ⟨d, hd, rfl, hredeclares⟩
    have hagain := hredeclares.of_origin horigin
    refine ⟨declares_of_resolved hi, ?_, d, hd, rfl, hagain⟩
    rw [← hagain.name]
    exact (owned_outline hf root).node_of_made hd

section Program

variable (hprogram : f.HasProgram root) (hwhole : (ofForest f (some root)).truncated = false)

include hprogram

/-- The name of a binding is declared. -/
theorem declares_nameNode (hj : (ofForest f (some root)).binding? j = some binding) :
    f.Declares binding.nameNode ∧
      (declarations f root).resolved[binding.nameNode]? = some j := by
  rcases exists_declared hj with ⟨old, hold, horigin⟩
  have hname : old.nameNode = binding.nameNode := (congrArg Binding.nameNode horigin :)
  have hfound := (registered_declarations hprogram hold).resolved
  rw [hname] at hfound
  exact ⟨declares_of_resolved hfound, hfound⟩

include hwhole

theorem reference_ofForest (hj : (ofForest f (some root)).binding? j = some binding)
    (hr : r ∈ binding.references) :
    f.node? (some r.node) = some (.name .identifier binding.name) ∧
      (ofForest f (some root)).resolve (some r.node) = some j ∧ ¬ f.Declares r.node := by
  have hf := hprogram.wellFormed
  rcases exists_use hf hj hr with ⟨scope, inWith, name, hmem, hlookup⟩
  have hused := (mem_route_iff hwhole).mp ⟨scope, inWith, hmem⟩
  have hname : name = binding.name := by
    rcases exists_of_lookupFrom hlookup with ⟨s, hs⟩
    rcases (declared_declarations hf root).sound hs with ⟨old, hold, _, htext⟩
    rcases exists_declared hj with ⟨old', hold', horigin⟩
    obtain rfl := Option.some.inj (hold.symm.trans hold')
    exact htext.symm.trans (congrArg Binding.name horigin :)
  refine ⟨hname ▸ hused.node, ?_, not_declares_of_used hf hprogram.parent hused⟩
  rw [resolve_of_mem_route hf hprogram.parent hwhole hmem, hlookup]

theorem found_ofForest (hj : (ofForest f (some root)).binding? j = some binding) :
    (ofForest f (some root)).resolve (some binding.nameNode) = some j ∧
      (ofForest f (some root)).ofDeclaration (some binding.declaration) = some j := by
  obtain ⟨hdeclares, hresolved⟩ := declares_nameNode hprogram hj
  rcases exists_declared hj with ⟨old, hold, horigin⟩
  have hdeclaration : old.declaration = binding.declaration :=
    (congrArg Binding.declaration horigin :)
  constructor
  · rw [resolve, Option.bind_some, resolved_of_not_used hwhole fun kind name hused =>
      not_declares_of_used hprogram.wellFormed hprogram.parent hused hdeclares]
    exact hresolved
  · rw [ofDeclaration, Option.bind_some, (sameTables_ofForest f root).declared, ← hdeclaration]
    exact (registered_declarations hprogram hold).declared

theorem resolved_ofForest (hi : (ofForest f (some root)).resolve (some i) = some j) :
    ∃ binding, (ofForest f (some root)).binding? j = some binding ∧
      (i = binding.nameNode ∨ NamesAgain f root binding i ∨
        ∃ r ∈ binding.references, r.node = i) := by
  by_cases hused : ∃ kind name, Used f root kind name i
  · rcases hused with ⟨kind, name, hused⟩
    rcases referredBy_of_used hprogram hwhole hused hi with ⟨binding, hbinding, hr⟩
    exact ⟨binding, hbinding, Or.inr (Or.inr ⟨_, hr, rfl⟩)⟩
  · rw [resolve, Option.bind_some, resolved_of_not_used hwhole fun kind name h =>
      hused ⟨kind, name, h⟩] at hi
    rcases names_of_resolved hprogram.wellFormed hi with ⟨binding, hbinding, hnames⟩
    exact ⟨binding, hbinding, hnames.imp_right Or.inl⟩

theorem isSome_resolve : ((ofForest f (some root)).resolve (some i)).isSome =
    (declarationOf f root i).isSome := by
  rw [declarationOf, resolveBinding]
  cases hi : (ofForest f (some root)).resolve (some i) with
  | none => rfl
  | some j =>
      rcases resolved_ofForest hprogram hwhole hi with ⟨binding, hbinding, _⟩
      rw [Option.bind_some, hbinding]
      rfl

omit hprogram hwhole in
theorem declarationOf_of_resolve (hj : (ofForest f (some root)).binding? j = some binding)
    (hi : (ofForest f (some root)).resolve (some i) = some j) :
    declarationOf f root i = some binding.declaration := by
  rw [declarationOf, resolveBinding, hi, Option.bind_some, hj]
  rfl

/-- The references to a binding are the used names that stand for its declaration. -/
theorem mem_references_iff (hj : (ofForest f (some root)).binding? j = some binding) :
    (∃ r ∈ binding.references, r.node = i) ↔
      (∃ kind name, Used f root kind name i) ∧
        declarationOf f root i = some binding.declaration := by
  constructor
  · rintro ⟨r, hr, rfl⟩
    rcases exists_use hprogram.wellFormed hj hr with ⟨scope, inWith, name, hmem, _⟩
    have hresolve := (reference_ofForest hprogram hwhole hj hr).2.1
    exact ⟨⟨_, _, (mem_route_iff hwhole).mp ⟨scope, inWith, hmem⟩⟩,
      declarationOf_of_resolve hj hresolve⟩
  · rintro ⟨⟨kind, name, hused⟩, hdecl⟩
    rcases binding_of_declarationOf hprogram hdecl with ⟨k, hk, hdeclared⟩
    obtain rfl : j = k :=
      Option.some.inj ((found_ofForest hprogram hwhole hj).2.symm.trans hdeclared)
    rcases referredBy_of_used hprogram hwhole hused hk with ⟨binding', hbinding', hr⟩
    obtain rfl := Option.some.inj (hj.symm.trans hbinding')
    exact ⟨_, hr, rfl⟩

omit hwhole

/-- A parameter hides the name of its function only. -/
theorem nameAndParameter_of_hides {old old' : Binding}
    (hold : (declarations f root).binding? j = some old)
    (hold' : (declarations f root).binding? k = some old') (hscope : old.scope = old'.scope)
    (hhides : (declarations f root).Hides j old old') : NameAndParameter f old' old := by
  have hdeclared := declared_declarations hprogram.wellFormed root
  obtain ⟨hopener, hown⟩ := hdeclared.ownName hold' hhides.hidden
  rcases hdeclared.parameter hold hhides.kind with ⟨x, hx, hparameter⟩
  obtain rfl := Option.some.inj (hopener.symm.trans (hscope ▸ hx))
  exact ⟨hhides.hidden, hhides.kind, hown, hparameter⟩

theorem apart_ofForest (hj : (ofForest f (some root)).binding? j = some binding)
    (hk : (ofForest f (some root)).binding? k = some binding') (hne : j ≠ k)
    (hscope : binding.scope = binding'.scope) (hname : binding.name = binding'.name) :
    NameAndParameter f binding binding' ∨ NameAndParameter f binding' binding := by
  rcases exists_declared hj with ⟨old, hold, horigin⟩
  rcases exists_declared hk with ⟨old', hold', horigin'⟩
  rw [show binding.scope = old.scope from (congrArg Binding.scope horigin :).symm,
    show binding'.scope = old'.scope from (congrArg Binding.scope horigin' :).symm] at hscope
  rw [show binding.name = old.name from (congrArg Binding.name horigin :).symm,
    show binding'.name = old'.name from (congrArg Binding.name horigin' :).symm] at hname
  have hapart : NameAndParameter f old old' ∨ NameAndParameter f old' old := by
    rcases (declared_declarations hprogram.wellFormed root).apart hold hold' hne hscope hname with
      hhides | hhides
    · exact Or.inr (nameAndParameter_of_hides hprogram hold hold' hscope hhides)
    · exact Or.inl (nameAndParameter_of_hides hprogram hold' hold hscope.symm hhides)
  -- Uses change nothing that tells a name from a parameter.
  change NameAndParameter f binding.origin binding'.origin ∨
    NameAndParameter f binding'.origin binding.origin
  rw [← horigin, ← horigin']
  exact hapart

end Program

/-- The records of every program tree are exact, provided that it was bound as a whole. -/
theorem exact_ofForest (hprogram : f.HasProgram root)
    (hwhole : (ofForest f (some root)).truncated = false) :
    Exact f root (ofForest f (some root)) := by
  have hf := hprogram.wellFormed
  constructor
  · intro j binding hj r hr
    have hreference := reference_ofForest hprogram hwhole hj hr
    exact ⟨hreference.1, hreference.2.1⟩
  · exact distinct_references hf root
  · exact found_ofForest hprogram hwhole
  · intro j binding hj other hother r hr heq
    rcases Array.mem_iff_getElem?.mp hother with ⟨k, hk⟩
    have hreference := reference_ofForest hprogram hwhole hk hr
    exact hreference.2.2 (heq ▸ (declares_nameNode hprogram hj).1)
  · exact resolved_ofForest hprogram hwhole
  · exact apart_ofForest hprogram

/-- The parameter hides the name of the function that it belongs to. -/
theorem exact_ofForest_parameter :
    ∃ p, Program.parse "(function f(f) \x7b return f; \x7d);" = .ok p ∧
      p.forest.HasProgram p.root ∧ (ofForest p.forest (some p.root)).truncated = false ∧
      Exact p.forest p.root (ofForest p.forest (some p.root)) := by
  have hfacts : ∃ p ∈ (Program.parse "(function f(f) \x7b return f; \x7d);").toOption,
      (outline p.forest p.root).Whole ∧
        .cut ∉ p.forest.itinerary (fun _ => none) (Limits.treeDepth + 1) (.value .read)
          ⟨programScope, false⟩ (some p.root) := by
    decide +kernel
  rcases hfacts with ⟨p, hp, houtline, hcut⟩
  have hparse := Program.parse_of_mem_toOption hp
  have hprogram := Program.hasProgram_parse hparse
  have hwhole := truncated_ofForest.mpr ⟨houtline, fun h => hcut (cut_mem_itinerary h)⟩
  exact ⟨p, hparse, hprogram, hwhole, exact_ofForest hprogram hwhole⟩

end Bindings

end Untangle
