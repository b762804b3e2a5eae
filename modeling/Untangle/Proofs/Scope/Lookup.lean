import Untangle.Proofs.Scope.Agreement
import Untangle.Proofs.Scope.Uses

/-!
# Lookup of used names

The binding recorded for the use of a name is the one that is found afterwards, by climbing to
the scope around the name and looking the name up there.
-/

namespace Untangle

open Forest Bindings
open Relation (ReflTransGen)

/-!
## Stops and the positions at which they are made
-/

namespace Forest

variable {f : Forest} {opened : NodeId → Option ScopeId} {depth : Nat} {p q : Purpose}
  {o : Outlook} {i c : NodeId} {n : Node Slot} {stop : Stop}

theorem itinerary_again (hn : f.node? (some i) = some n) (hq : n.again? p = some q) :
    f.itinerary opened (depth + 1) p o (some i) =
      f.itinerary opened depth q (o.enter (opened i) p) (some i) := by
  simp only [itinerary, hn, hq]

theorem itinerary_here (hn : f.node? (some i) = some n) (hstop : n.again? p = none) :
    f.itinerary opened (depth + 1) p o (some i) =
      n.stops (o.enter (opened i) p) i p ++
        (n.errands p).flatMap fun e =>
          f.itinerary opened depth e.purpose ((o.enter (opened i) p).follow e) e.slot := by
  simp only [itinerary, hn, hstop]

theorem itinerary_missing (h : f.node? (some i) = none) :
    f.itinerary opened (depth + 1) p o (some i) = [] := by
  simp only [itinerary, h]

theorem use_of_mem_stops {scope : ScopeId} {inWith : Bool} {kind : ReferenceKind} {name : String}
    (h : .use scope inWith kind name c ∈ n.stops o i p) :
    n = .name .identifier name ∧ c = i ∧ scope = o.scope ∧ p.use? = some kind := by
  unfold Node.stops at h
  split at h
  · split at h
    · cases List.mem_singleton.mp h
      exact ⟨rfl, rfl, rfl, ‹_›⟩
    · cases List.mem_singleton.mp h
  · cases List.mem_singleton.mp h
  · cases h

theorem cut_not_mem_stops (n : Node Slot) : .cut ∉ n.stops o i p := by
  unfold Node.stops
  split
  · split <;> simp
  · simp
  · simp

/-- What holds along the walk holds where a stop is made. -/
theorem exists_of_mem_itinerary {I : Nat → Position → Outlook → Prop}
    (hagain : ∀ {d i n p q o}, I (d + 1) (p, i) o → f.node? (some i) = some n →
      n.again? p = some q → I d (q, i) (o.enter (opened i) p))
    (hchild : ∀ {d i n p e c o}, I (d + 1) (p, i) o → f.node? (some i) = some n →
      n.again? p = none → e ∈ n.errands p → e.slot = some c →
      I d (e.purpose, c) ((o.enter (opened i) p).follow e))
    (hstart : I depth (p, i) o) (hmem : stop ∈ f.itinerary opened depth p o (some i))
    (hcut : stop ≠ .cut) :
    ∃ d q c n o, I (d + 1) (q, c) o ∧ f.node? (some c) = some n ∧
      stop ∈ n.stops (o.enter (opened c) q) c q := by
  induction depth generalizing p i o with
  | zero => exact absurd (List.mem_singleton.mp hmem) hcut
  | succ depth ih =>
      cases hn : f.node? (some i) with
      | none =>
          rw [itinerary_missing hn] at hmem
          cases hmem
      | some n =>
          cases hq : n.again? p with
          | some q =>
              rw [itinerary_again hn hq] at hmem
              exact ih (hagain hstart hn hq) hmem
          | none =>
              rw [itinerary_here hn hq, List.mem_append, List.mem_flatMap] at hmem
              rcases hmem with hmem | ⟨e, he, hmem⟩
              · exact ⟨depth, p, i, n, o, hstart, hn, hmem⟩
              · cases hc : e.slot with
                | none =>
                    rw [hc] at hmem
                    cases depth with
                    | zero => exact absurd (List.mem_singleton.mp hmem) hcut
                    | succ depth => cases hmem
                | some c =>
                    rw [hc] at hmem
                    exact ih (hchild hstart hn hq he hc) hmem

/-- When nothing is left out, everything that is done at a position reached from the start is
part of the itinerary. -/
theorem exists_itinerary_of_reached {x y : Position} (hpath : ReflTransGen (Next f) x y)
    (hwhole : .cut ∉ f.itinerary opened depth x.1 o (some x.2)) :
    ∃ d o', f.itinerary opened d y.1 o' (some y.2) ⊆ f.itinerary opened depth x.1 o (some x.2) := by
  induction hpath with
  | refl => exact ⟨depth, o, fun _ h => h⟩
  | tail _ hnext ih =>
      rcases ih with ⟨d, o', hsub⟩
      cases d with
      | zero => exact absurd (hsub (List.mem_singleton_self _)) hwhole
      | succ d =>
          cases hnext with
          | again hn hq =>
              rw [itinerary_again hn hq] at hsub
              exact ⟨d, _, hsub⟩
          | @child i c n p e hn hstop he hc =>
              rw [itinerary_here hn hstop] at hsub
              refine ⟨d, (o'.enter (opened i) p).follow e, fun stop hmem => ?_⟩
              refine hsub (List.mem_append_right _ (List.mem_flatMap.mpr ⟨e, he, ?_⟩))
              rwa [hc]

end Forest

/-!
## Uses
-/

namespace Forest

variable {f : Forest} {opened opened' : NodeId → Option ScopeId} {depth : Nat} {root i : NodeId}

/-- Where the walk gives up does not depend on scopes. -/
theorem cut_mem_itinerary {p : Purpose} {o o' : Outlook} {s : Slot}
    (h : .cut ∈ f.itinerary opened depth p o s) : .cut ∈ f.itinerary opened' depth p o' s := by
  induction depth generalizing p o o' s with
  | zero => exact List.mem_singleton_self _
  | succ depth ih =>
      cases s with
      | none => cases h
      | some i =>
          cases hn : f.node? (some i) with
          | none =>
              rw [itinerary_missing hn] at h
              cases h
          | some n =>
              cases hq : n.again? p with
              | some q =>
                  rw [itinerary_again hn hq] at h ⊢
                  exact ih h
              | none =>
                  rw [itinerary_here hn hq, List.mem_append, List.mem_flatMap] at h ⊢
                  rcases h with h | ⟨e, he, h⟩
                  · exact absurd h (cut_not_mem_stops n)
                  · exact Or.inr ⟨e, he, ih h⟩

/-- The uses on an itinerary are the positions where a name comes up for its value. -/
theorem use_mem_itinerary_iff {kind : ReferenceKind} {name : String} {o : Outlook}
    (hcut : .cut ∉ f.itinerary opened depth (.value .read) o (some root)) :
    (∃ scope inWith, .use scope inWith kind name i ∈
      f.itinerary opened depth (.value .read) o (some root)) ↔ Used f root kind name i := by
  constructor
  · rintro ⟨scope, inWith, hmem⟩
    have hposition := exists_of_mem_itinerary (I := fun _ x _ => Reached f root x)
      (fun h hn hq => h.tail (.again hn hq)) (fun h hn hstop he hc => h.tail (.child hn hstop he hc))
      .refl hmem nofun
    rcases hposition with ⟨_, p, c, n, o, hreached, hn, hstop⟩
    rcases use_of_mem_stops hstop with ⟨rfl, rfl, _, hkind⟩
    exact ⟨hn, p, hreached, hkind⟩
  · rintro ⟨hn, p, hreached, hkind⟩
    rcases exists_itinerary_of_reached hreached hcut with ⟨d, o', hsub⟩
    cases d with
    | zero => exact absurd (hsub (List.mem_singleton_self _)) hcut
    | succ d =>
        have hstop : (Node.name .identifier name : Node Slot).again? p = none := by
          cases p <;> rfl
        rw [itinerary_here hn hstop, List.append_subset] at hsub
        simp only [Node.stops, hkind] at hsub
        exact ⟨_, _, hsub.1 (List.mem_singleton_self _)⟩

end Forest

/-!
## The scope of a use
-/

namespace Node

variable {n : Node Slot} {kind : Option ReferenceKind} {k : ReferenceKind}

theorem not_opensScope_of_target (h : n.again? (.target kind) = none) : n.opensScope = false := by
  cases n with
  | classLike form _ _ _ => cases form <;> cases h
  | body form _ => cases form <;> cases h
  | list form _ | operand form _ | bare form | binary form _ _ _ | name form _ => rfl
  | _ => first | rfl | cases h

theorem not_opensScope_of_again (h : (n.again? (.value k)).isSome) : n.opensScope = false := by
  cases n with
  | classLike form _ _ _ => cases h
  | body form _ => cases h
  | _ => first | rfl | cases h

end Node

namespace Bindings

variable {f : Forest} {root i c : NodeId} {b : Bindings} {o : Outlook} {n : Node Slot}

/-- At a node of a kind that opens a scope the walk enters the scope found there. -/
theorem enter_scope {purpose : Purpose} (hb : b.Settled f root)
    (hroot : f.parent (some root) = none) (h : Around f root b i o.scope)
    (hn : f.node? (some i) = some n) (hkind : ∀ kind, purpose = .target kind →
      n.opensScope = false) : (o.enter b.opened[i]? purpose).scope = (b.opened[i]?).getD o.scope := by
  cases purpose with
  | value kind => rfl
  | target kind => exact (h.stays hb hroot hn (hkind kind rfl)).symm

/-- Where the walk is with so many levels left: in the scope around the node, which is found by
climbing. -/
structure Oriented (f : Forest) (root : NodeId) (b : Bindings) (depth left : Nat) (i : NodeId)
    (o : Outlook) : Prop where
  left_le : left ≤ depth
  around : Around f root b i o.scope
  climbs : ∀ steps, depth ≤ steps + left → b.scopeOfFrom f steps (f.parent (some i)) = o.scope

theorem scopeOfFrom_succ (f : Forest) (b : Bindings) (steps : Nat) (i : NodeId) :
    b.scopeOfFrom f (steps + 1) (some i) =
      (b.opened[i]?).getD (b.scopeOfFrom f steps (f.parent (some i))) := by
  rw [scopeOfFrom]
  cases b.opened[i]? <;> rfl

variable {depth left : Nat} {p q : Purpose} {e : Errand}

theorem Oriented.again (hb : b.Settled f root) (hroot : f.parent (some root) = none)
    (h : Oriented f root b depth (left + 1) i o) (hn : f.node? (some i) = some n)
    (hq : n.again? p = some q) : Oriented f root b depth left i (o.enter b.opened[i]? p) := by
  have hscope : (o.enter b.opened[i]? p).scope = o.scope := by
    cases p with
    | value kind =>
        have hkind := Node.not_opensScope_of_again (hq ▸ rfl : (n.again? (.value kind)).isSome)
        exact h.around.stays hb hroot hn hkind
    | target kind => rfl
  refine ⟨Nat.le_of_succ_le h.left_le, hscope ▸ h.around, fun steps hsteps => ?_⟩
  rw [hscope]
  exact h.climbs steps (Nat.le_succ_of_le hsteps)

theorem Oriented.child (hf : f.WellFormed) (hb : b.Settled f root)
    (hroot : f.parent (some root) = none) (h : Oriented f root b depth (left + 1) i o)
    (hn : f.node? (some i) = some n) (hstop : n.again? p = none) (he : e ∈ n.errands p)
    (hc : e.slot = some c) :
    Oriented f root b depth left c ((o.enter b.opened[i]? p).follow e) := by
  have hslot : some c ∈ n.slots := hc ▸ Node.mem_slots_of_errand he
  have hscope : ((o.enter b.opened[i]? p).follow e).scope = (b.opened[i]?).getD o.scope := by
    refine enter_scope hb hroot h.around hn fun kind hp => ?_
    exact Node.not_opensScope_of_target (hp ▸ hstop)
  refine ⟨Nat.le_of_succ_le h.left_le, hscope ▸ h.around.child hf hn hslot, ?_⟩
  intro steps hsteps
  have hparent : f.parent (some c) = some i := hf.link_of_slot hn hslot
  cases steps with
  | zero => exact absurd (h.left_le.trans (by omega)) (Nat.not_succ_le_self left)
  | succ steps =>
      rw [hparent, scopeOfFrom_succ, hscope, h.climbs steps (by omega)]

/-- The scope in which a name is dealt with is the one found by climbing. -/
theorem Oriented.scopeOf (hb : b.Settled f root) (hroot : f.parent (some root) = none)
    (hdepth : depth ≤ Limits.scopeSteps) (h : Oriented f root b depth (left + 1) i o)
    (hn : f.node? (some i) = some n) (hkind : n.opensScope = false) (p : Purpose) :
    b.scopeOf f (some i) = (o.enter b.opened[i]? p).scope := by
  rw [enter_scope hb hroot h.around hn fun _ _ => hkind, Bindings.scopeOf]
  have hsteps : Limits.scopeSteps = (Limits.scopeSteps - 1) + 1 := rfl
  rw [hsteps, scopeOfFrom_succ, h.climbs]
  have := h.left_le
  omega

end Bindings

/-!
## What stops leave alone
-/

/-- A binding as it is when it is declared. -/
def Binding.origin (b : Binding) : Binding :=
  { b with dynamic := false, references := #[] }

namespace Bindings

variable {b b' : Bindings}

/-- The tables differ at most in what was resolved. -/
structure SameTables (b b' : Bindings) : Prop extends b.SameScopes b' where
  names : b'.names = b.names
  declared : b'.declared = b.declared
  origins : b'.bindings.map Binding.origin = b.bindings.map Binding.origin

theorem SameTables.refl (b : Bindings) : b.SameTables b :=
  ⟨.refl b, rfl, rfl, rfl⟩

theorem SameTables.trans {c : Bindings} (h : b.SameTables b') (h' : b'.SameTables c) :
    b.SameTables c :=
  ⟨h.toSameScopes.trans h'.toSameScopes, h'.names.trans h.names, h'.declared.trans h.declared,
    h'.origins.trans h.origins⟩

theorem SameTables.lookupFrom (h : b.SameTables b') (name : String) (steps : Nat)
    (s : Option ScopeId) : b'.lookupFrom name steps s = b.lookupFrom name steps s := by
  induction steps generalizing s with
  | zero => rfl
  | succ steps ih =>
      cases s with
      | none => rfl
      | some s =>
          rw [Bindings.lookupFrom, Bindings.lookupFrom, h.names, h.scope?]
          cases b.names[(s, name)]? with
          | some i => rfl
          | none => exact ih _

theorem SameTables.lookup (h : b.SameTables b') (s : ScopeId) (name : String) :
    b'.lookup s name = b.lookup s name :=
  h.lookupFrom name Limits.scopeSteps (some s)

theorem origins_modifyBinding (b : Bindings) (i : BindingId) {change : Binding → Binding}
    (h : ∀ binding, (change binding).origin = binding.origin) :
    (b.modifyBinding i change).bindings.map Binding.origin = b.bindings.map Binding.origin := by
  apply Array.ext
  · simp [modifyBinding]
  · intro k hk hk'
    simp only [modifyBinding, Array.getElem_map, Array.getElem_modify]
    split
    · exact h _
    · rfl

theorem sameTables_addReference (b : Bindings) (scope : ScopeId) (inWith : Bool)
    (kind : ReferenceKind) (name : String) (node : NodeId) :
    b.SameTables (b.addReference scope inWith kind name node) := by
  unfold addReference
  extract_lets c
  have hc : b.SameTables c := by
    change b.SameTables (if inWith then _ else _)
    split <;> exact ⟨⟨rfl, rfl⟩, rfl, rfl, rfl⟩
  split
  · exact hc
  · exact hc.trans ⟨⟨rfl, rfl⟩, rfl, rfl, origins_modifyBinding _ _ fun _ => rfl⟩

theorem sameTables_markDynamic (b : Bindings) (inWith : Bool) (nameNode : Slot) :
    b.SameTables (b.markDynamic inWith nameNode) := by
  unfold markDynamic
  split
  · cases b.resolve nameNode with
    | none => exact .refl b
    | some i => exact ⟨⟨rfl, rfl⟩, rfl, rfl, origins_modifyBinding _ _ fun _ => rfl⟩
  · exact .refl b

theorem sameTables_apply (b : Bindings) (stop : Stop) : b.SameTables (stop.apply b) := by
  cases stop with
  | use scope inWith kind name node => exact b.sameTables_addReference ..
  | mark inWith nameNode => exact b.sameTables_markDynamic ..
  | cut => exact ⟨⟨rfl, rfl⟩, rfl, rfl, rfl⟩

theorem sameTables_after (b : Bindings) (stops : List Stop) : b.SameTables (b.after stops) := by
  induction stops generalizing b with
  | nil => exact .refl b
  | cons stop stops ih => exact (b.sameTables_apply stop).trans (ih (stop.apply b))

/-!
## What stops resolve
-/

end Bindings

/-- The node whose name a stop resolves. -/
def Stop.user? : Stop → Option NodeId
  | use _ _ _ _ node => some node
  | _ => none

namespace Bindings

variable {b : Bindings}

theorem resolved_addReference (b : Bindings) (scope : ScopeId) (inWith : Bool)
    (kind : ReferenceKind) (name : String) (node i : NodeId) :
    (b.addReference scope inWith kind name node).resolved[i]? =
      if node = i then (b.lookup scope name).or b.resolved[i]? else b.resolved[i]? := by
  have hsame : ∀ set, b.SameTables { b with dynamicNames := set } := fun set =>
    ⟨⟨rfl, rfl⟩, rfl, rfl, rfl⟩
  have hlookup : ∀ set, Bindings.lookup { b with dynamicNames := set } scope name =
      b.lookup scope name := fun set => (hsame set).lookup scope name
  unfold addReference
  cases inWith <;> cases hi : b.lookup scope name <;>
    simp [hlookup, hi, modifyBinding, Std.HashMap.getElem?_insert]

variable {stops : List Stop} {i : NodeId}

theorem resolved_apply {stop : Stop} (h : stop.user? ≠ some i) :
    (stop.apply b).resolved[i]? = b.resolved[i]? := by
  cases stop with
  | use scope inWith kind name node =>
      refine (b.resolved_addReference ..).trans (if_neg ?_)
      rintro rfl
      exact h rfl
  | mark inWith nameNode =>
      change (b.markDynamic inWith nameNode).resolved[i]? = _
      unfold markDynamic
      split
      · cases b.resolve nameNode <;> rfl
      · rfl
  | cut => rfl

theorem resolved_after_of_not_used (h : ∀ stop ∈ stops, stop.user? ≠ some i) :
    (b.after stops).resolved[i]? = b.resolved[i]? := by
  induction stops generalizing b with
  | nil => rfl
  | cons stop stops ih =>
      rw [List.forall_mem_cons] at h
      exact (ih h.2).trans (resolved_apply h.1)

/-- All uses of a name find the same binding, and that is what it is resolved to. -/
theorem resolved_after_of_used {found : Option BindingId}
    (hfound : ∀ scope inWith kind name, .use scope inWith kind name i ∈ stops →
      b.lookup scope name = found) (hused : ∃ stop ∈ stops, stop.user? = some i) :
    (b.after stops).resolved[i]? = found.or b.resolved[i]? := by
  induction stops generalizing b with
  | nil => simp at hused
  | cons stop stops ih =>
      have hsame := b.sameTables_apply stop
      have hrest : ∀ scope inWith kind name, .use scope inWith kind name i ∈ stops →
          (stop.apply b).lookup scope name = found := by
        intro scope inWith kind name hmem
        rw [hsame.lookup]
        exact hfound scope inWith kind name (List.mem_cons_of_mem _ hmem)
      have hfirst : stop.user? = some i →
          (stop.apply b).resolved[i]? = found.or b.resolved[i]? := by
        intro huser
        cases stop with
        | use scope inWith kind name node =>
            obtain rfl := Option.some.inj huser
            rw [← hfound scope inWith kind name List.mem_cons_self]
            exact (b.resolved_addReference ..).trans (if_pos rfl)
        | mark _ _ => cases huser
        | cut => cases huser
      change ((stop.apply b).after stops).resolved[i]? = _
      by_cases hmore : ∃ stop ∈ stops, stop.user? = some i
      · rw [ih hrest hmore]
        by_cases huser : stop.user? = some i
        · rw [hfirst huser]
          cases found <;> rfl
        · rw [resolved_apply huser]
      · rw [resolved_after_of_not_used fun stop hmem huser => hmore ⟨stop, hmem, huser⟩]
        refine hfirst ?_
        rcases hused with ⟨user, hmem, huser⟩
        rcases List.mem_cons.mp hmem with rfl | hmem
        · exact huser
        · exact absurd ⟨user, hmem, huser⟩ hmore

theorem truncated_apply {stop : Stop} : (stop.apply b).truncated = false ↔
    b.truncated = false ∧ stop ≠ .cut := by
  cases stop with
  | use scope inWith kind name node =>
      have h : (b.addReference scope inWith kind name node).truncated = b.truncated := by
        unfold addReference
        cases inWith <;> dsimp only <;> split <;> rfl
      simp [Stop.apply, h]
  | mark inWith nameNode =>
      have h : (b.markDynamic inWith nameNode).truncated = b.truncated := by
        unfold markDynamic
        split
        · cases b.resolve nameNode <;> rfl
        · rfl
      simp [Stop.apply, h]
  | cut => simp [Stop.apply, truncate]

theorem truncated_after : (b.after stops).truncated = false ↔
    b.truncated = false ∧ .cut ∉ stops := by
  induction stops generalizing b with
  | nil => simp [after]
  | cons stop stops ih =>
      refine (ih (b := stop.apply b)).trans ?_
      rw [truncated_apply, List.mem_cons, not_or, and_assoc]
      exact and_congr_right' (and_congr_left' ⟨Ne.symm, Ne.symm⟩)

/-!
## Both walks
-/

/-- The outline of a whole tree. -/
def outline (f : Forest) (root : NodeId) : Outline :=
  (Sketch.ofDepth f (Limits.treeDepth + 1)).node (some root)

/-- The bindings of a tree before its names are resolved. -/
def declarations (f : Forest) (root : NodeId) : Bindings :=
  (outline f root).play programScope programScope (start root)

/-- The stops of the walk that resolves the names of a tree. -/
def route (f : Forest) (root : NodeId) : List Stop :=
  f.itinerary ((declarations f root).opened[·]?) (Limits.treeDepth + 1) (.value .read)
    ⟨programScope, false⟩ (some root)

theorem ofForest_eq (f : Forest) (root : NodeId) :
    ofForest f (some root) = (declarations f root).after (route f root) := by
  let declare : Bind Unit :=
    (DeclarationWalk.ofDepth .silent f (Limits.treeDepth + 1)).node programScope (some root)
  let resolve : Bind Unit :=
    (ResolutionWalk.ofDepth .silent f (Limits.treeDepth + 1)).node ⟨programScope, false⟩ .read
      (some root)
  have hdeclare : declare.run (start root) = ((), declarations f root) :=
    @(DeclarationWalk.sketched_ofDepth f _).node programScope programScope (some root) _
  have hresolve : resolve.run (declarations f root) =
      ((), (declarations f root).after (route f root)) :=
    ResolutionWalk.makes_ofDepth f (declarations f root).opened _ (.value .read) _ _ rfl
  change (resolve.run (declare.run (start root)).2).2 = _
  rw [hdeclare, hresolve]

section Tree

variable {f : Forest} {root i : NodeId} {scope : ScopeId} {inWith : Bool} {kind : ReferenceKind}
  {name : String}

theorem sameTables_ofForest (f : Forest) (root : NodeId) :
    (declarations f root).SameTables (ofForest f (some root)) := by
  rw [ofForest_eq]
  exact sameTables_after _ _

theorem bindings_of_no_declarations (h : (declarations f root).bindings = #[]) :
    (ofForest f (some root)).bindings = #[] := by
  have horigins := (sameTables_ofForest f root).origins
  rw [h] at horigins
  simpa using horigins

/-- A tree is bound as a whole when neither walk gives up on a part of it. -/
theorem truncated_ofForest : (ofForest f (some root)).truncated = false ↔
    (outline f root).Whole ∧ .cut ∉ route f root := by
  rw [ofForest_eq, truncated_after, declarations, Outline.truncated_play]
  exact and_congr_left' (and_iff_right rfl)

/-- The walk uses the names at the positions where it comes to names for their values. -/
theorem mem_route_iff (hwhole : (ofForest f (some root)).truncated = false) :
    (∃ scope inWith, .use scope inWith kind name i ∈ route f root) ↔ Used f root kind name i :=
  use_mem_itinerary_iff (truncated_ofForest.mp hwhole).2

/-- Names are used in the scope that is found by climbing. -/
theorem scope_of_mem_route (hf : f.WellFormed) (hroot : f.parent (some root) = none)
    (hmem : .use scope inWith kind name i ∈ route f root) :
    scope = (ofForest f (some root)).scopeOf f (some i) := by
  have hb := (walked_track hf hroot).settled
  have hopened := (sameTables_ofForest f root).opened
  rw [route, ← hopened] at hmem
  have hstart : Oriented f root (ofForest f (some root)) (Limits.treeDepth + 1)
      (Limits.treeDepth + 1) root ⟨programScope, false⟩ := by
    refine ⟨le_rfl, .root, fun steps _ => ?_⟩
    rw [hroot]
    cases steps <;> rfl
  have hposition := exists_of_mem_itinerary
    (I := fun left x o => Oriented f root (ofForest f (some root)) (Limits.treeDepth + 1) left x.2 o)
    (fun h hn hq => h.again hb hroot hn hq)
    (fun h hn hstop he hc => h.child hf hb hroot hn hstop he hc) hstart hmem nofun
  rcases hposition with ⟨left, p, c, n, o, horiented, hn, hstop⟩
  rcases use_of_mem_stops hstop with ⟨rfl, rfl, rfl, _⟩
  exact (horiented.scopeOf hb hroot (by decide) hn rfl p).symm

/-- Names that the walk does not use are resolved when they are declared, if ever. -/
theorem resolved_of_not_used (hwhole : (ofForest f (some root)).truncated = false)
    (hi : ∀ kind name, ¬ Used f root kind name i) :
    (ofForest f (some root)).resolved[i]? = (declarations f root).resolved[i]? := by
  rw [ofForest_eq]
  refine resolved_after_of_not_used fun stop hmem huser => ?_
  cases stop with
  | use scope inWith kind name node =>
      obtain rfl : node = i := Option.some.inj huser
      exact hi kind name ((mem_route_iff hwhole).mp ⟨scope, inWith, hmem⟩)
  | mark _ _ => cases huser
  | cut => cases huser

/-- A name that is used is not declared at the same place. -/
theorem not_declares_of_used (hf : f.WellFormed) (hroot : f.parent (some root) = none)
    (hi : Used f root kind name i) : ¬ f.Declares i := by
  rcases hi with ⟨hn, p, hreached, hkind⟩
  rintro (hbinds | ⟨q, n, hq, hown⟩)
  · obtain rfl : p = .target none := hf.reached_of_binds hroot hreached hbinds hn rfl
    cases hkind
  · exact hf.not_reached_of_ownName hroot hq hown hreached

/-- Before the uses, only names of declarations are resolved. -/
theorem resolved_of_not_declares (hi : ¬ f.Declares i) :
    (declarations f root).resolved[i]? = none := by
  have hnames : i ∉ (outline f root).names := fun hmem =>
    hi (((Sketch.entitled_ofDepth f _).node (some root)).declares i hmem)
  exact (Outline.resolved_play _ _ _ _ hnames).trans Std.HashMap.getElem?_empty

/-- A use is resolved to what its name means in the scope that the walk comes to it in. -/
theorem resolve_of_mem_route (hf : f.WellFormed) (hroot : f.parent (some root) = none)
    (hwhole : (ofForest f (some root)).truncated = false) {scope : ScopeId} {inWith : Bool}
    (hmem : .use scope inWith kind name i ∈ route f root) :
    (ofForest f (some root)).resolve (some i) = (declarations f root).lookup scope name := by
  have hi := (mem_route_iff hwhole).mp ⟨_, _, hmem⟩
  have hnone : (declarations f root).resolved[i]? = none :=
    resolved_of_not_declares (not_declares_of_used hf hroot hi)
  have hfound : ∀ scope' inWith' kind' name', .use scope' inWith' kind' name' i ∈ route f root →
      (declarations f root).lookup scope' name' = (declarations f root).lookup scope name := by
    intro scope' inWith' kind' name' hmem'
    obtain rfl := (scope_of_mem_route hf hroot hmem').trans (scope_of_mem_route hf hroot hmem).symm
    have hnode := ((mem_route_iff hwhole).mp ⟨_, _, hmem'⟩).node
    obtain rfl : name = name' := by simpa using hi.node.symm.trans hnode
    rfl
  rw [resolve, Option.bind_some, ofForest_eq, resolved_after_of_used hfound ⟨_, hmem, rfl⟩, hnone,
    Option.or_none]

/-- The binding recorded for a use is the one that is found by climbing to the scope around it
and looking the name up there. -/
theorem resolve_eq_lookup (hf : f.WellFormed) (hroot : f.parent (some root) = none)
    (hwhole : (ofForest f (some root)).truncated = false) (hi : Used f root kind name i) :
    (ofForest f (some root)).resolve (some i) =
      (ofForest f (some root)).lookup ((ofForest f (some root)).scopeOf f (some i)) name := by
  rcases (mem_route_iff hwhole).mpr hi with ⟨scope, inWith, hmem⟩
  rw [resolve_of_mem_route hf hroot hwhole hmem, scope_of_mem_route hf hroot hmem,
    (sameTables_ofForest f root).lookup]

/-- One name is found around the block, the other one nowhere. -/
theorem resolve_eq_lookup_block :
    ∃ p, Program.parse "let x = 1; \x7b x; y; \x7d" = .ok p ∧
      ∃ b, b = ofForest p.forest (some p.root) ∧ b.truncated = false ∧
        Used p.forest p.root .read "x" 4 ∧
        b.resolve (some 4) = b.lookup (b.scopeOf p.forest (some 4)) "x" ∧
        Used p.forest p.root .read "y" 6 ∧
        b.resolve (some 6) = b.lookup (b.scopeOf p.forest (some 6)) "y" := by
  -- Tables of names cannot be evaluated here; the outline and the positions need none.
  have hfacts : ∃ p ∈ (Program.parse "let x = 1; \x7b x; y; \x7d").toOption,
      ∃ stops, stops = p.forest.itinerary (fun _ => none) (Limits.treeDepth + 1) (.value .read)
          ⟨programScope, false⟩ (some p.root) ∧
        (outline p.forest p.root).Whole ∧ .cut ∉ stops ∧
        .use 0 false .read "x" 4 ∈ stops ∧ .use 0 false .read "y" 6 ∈ stops := by
    simp only [exists_eq_left]
    decide +kernel
  rcases hfacts with ⟨p, hp, _, rfl, houtline, hcut, hx, hy⟩
  have hparse := Program.parse_of_mem_toOption hp
  have hgrown := Program.grown_parse hparse
  have hroot := (hgrown.mem_iff.mp (List.mem_singleton_self _)).2
  have hwhole := truncated_ofForest.mpr ⟨houtline, fun h => hcut (cut_mem_itinerary h)⟩
  have husedX := (use_mem_itinerary_iff hcut).mp ⟨_, _, hx⟩
  have husedY := (use_mem_itinerary_iff hcut).mp ⟨_, _, hy⟩
  exact ⟨p, hparse, _, rfl, hwhole,
    husedX, resolve_eq_lookup hgrown.wellFormed hroot hwhole husedX,
    husedY, resolve_eq_lookup hgrown.wellFormed hroot hwhole husedY⟩

end Tree

end Bindings
end Untangle
