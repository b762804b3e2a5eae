import Untangle.Proofs.Scope.Itinerary
import Untangle.Proofs.Scope.Outline

/-!
# Declared names and used names

The walk that resolves names comes to a node in one way only. It never comes to the name of a
function or of a class, and to the names in a declaring pattern only as targets without a kind,
so that no name is both declared and used.
-/

namespace Untangle

open Relation (ReflTransGen)

/-- Where no value is met twice, only one element has it. -/
theorem eq_of_nodup_filterMap {α β : Type} {g : α → Option β} {l : List α} {a a' : α} {c : β}
    (h : (l.filterMap g).Nodup) (ha : a ∈ l) (ha' : a' ∈ l) (hc : g a = some c)
    (hc' : g a' = some c) : a = a' := by
  induction l with
  | nil => cases ha
  | cons x l ih =>
      rcases List.mem_cons.mp ha with rfl | hmem <;> rcases List.mem_cons.mp ha' with rfl | hmem'
      · rfl
      · rw [List.filterMap_cons_some hc, List.nodup_cons] at h
        exact absurd (List.mem_filterMap.mpr ⟨a', hmem', hc'⟩) h.1
      · rw [List.filterMap_cons_some hc', List.nodup_cons] at h
        exact absurd (List.mem_filterMap.mpr ⟨a, hmem, hc⟩) h.1
      · exact ih (h.sublist ((List.sublist_cons_self x l).filterMap g)) hmem hmem'

/-!
## Where errands lead
-/

namespace Errand

variable (s : Slot) (slots : List Slot) (kind : Option ReferenceKind)

@[simp] theorem slot_toValue : (toValue s).slot = s :=
  rfl

@[simp] theorem slot_toTarget : (toTarget kind s).slot = s :=
  rfl

@[simp] theorem map_slot_toValue : slots.map (slot ∘ toValue) = slots :=
  List.map_id slots

@[simp] theorem map_slot_toTarget : slots.map (slot ∘ toTarget kind) = slots :=
  List.map_id slots

theorem map_slot_toValueIf (condition : Bool) :
    ((toValueIf condition s).map slot).Sublist [s] := by
  cases condition
  · exact List.nil_sublist _
  · exact List.Sublist.refl _

theorem map_some_filterMap : ((slots.filterMap id).map some).Sublist slots := by
  induction slots with
  | nil => exact .refl _
  | cons s slots ih =>
      cases s with
      | none => exact .cons _ ih
      | some i => exact .cons_cons _ ih

end Errand

namespace Node

variable {n : Node Slot} {purpose : Purpose} {e e' : Errand}

theorem slots_children (n : Node Slot) :
    (((Forest.childrenOf n).map fun i => Errand.toValue (some i)).map Errand.slot).Sublist
      n.slots := by
  rw [List.map_map]
  exact Errand.map_some_filterMap n.slots

theorem slots_computed (computed : Bool) (key value : Slot) {e : Errand} (he : e.slot = value) :
    ((Errand.toValueIf computed key ++ [e]).map Errand.slot).Sublist [key, value] := by
  rw [List.map_append, List.map_singleton, he]
  exact (Errand.map_slot_toValueIf key computed).append (.refl [value])

theorem slots_valueErrands (n : Node Slot) : (n.valueErrands.map Errand.slot).Sublist n.slots := by
  cases n with
  | function form ident parameters code isAsync isGenerator =>
      exact .cons _ (by simp [valueErrands])
  | classLike form ident heritage members => exact .cons _ (by simp [valueErrands])
  | method kind key value computed isStatic => exact slots_computed computed key value rfl
  | field key value computed isStatic => exact slots_computed computed key value rfl
  | property kind key value computed => exact slots_computed computed key value rfl
  | guarded form condition statement =>
      cases form with
      | withObject => exact .refl _
      | _ => exact slots_children _
  | labeled label statement => exact .cons _ (.refl _)
  | jump form label => exact List.nil_sublist _
  | access form object key isOptional inChain =>
      cases form with
      | property => exact List.sublist_append_left [object] [key]
      | element => exact slots_children _
  | binary form left operator right =>
      cases form with
      | assignment => exact .refl _
      | _ => exact slots_children _
  | call form callee arguments isOptional inChain =>
      cases form with
      | call => simp [valueErrands, slots]
      | construct => exact slots_children _
  | declarator _ _ | catchClause _ _ | unary _ _ _ | iteration _ _ _ _ _ => exact .refl _
  | _ => exact slots_children _

theorem slots_targetErrands (n : Node Slot) (kind : Option ReferenceKind) :
    ((n.targetErrands kind).map Errand.slot).Sublist n.slots := by
  cases n with
  | list form elements => simp [targetErrands, slots]
  | property form key value computed => exact slots_computed computed key value rfl
  | binary _ _ _ _ | operand _ _ => exact .refl _
  | _ => exact List.nil_sublist _

/-- A node sends at most one errand to each of its slots. -/
theorem slots_errands (n : Node Slot) (purpose : Purpose) :
    ((n.errands purpose).map Errand.slot).Sublist n.slots := by
  cases purpose with
  | value kind => exact n.slots_valueErrands
  | target kind => exact n.slots_targetErrands kind

theorem mem_slots_of_errand (he : e ∈ n.errands purpose) : e.slot ∈ n.slots :=
  (n.slots_errands purpose).subset (List.mem_map_of_mem he)

end Node

namespace Forest.WellFormed

variable {f : Forest} {i c : NodeId} {n : Node Slot} {p : Purpose} {e e' : Errand}

/-- Two errands to one child are the same. -/
theorem errand_unique (hf : f.WellFormed) (hn : f.node? (some i) = some n)
    (he : e ∈ n.errands p) (he' : e' ∈ n.errands p) (hc : e.slot = some c)
    (hc' : e'.slot = some c) : e = e' := by
  have hnodup : ((n.errands p).filterMap Errand.slot).Nodup := by
    have hchildren := hf.nodup i
    rw [children_of_node? hn] at hchildren
    have hsub := (n.slots_errands p).filterMap id
    rw [List.filterMap_map] at hsub
    exact hchildren.sublist hsub
  exact eq_of_nodup_filterMap hnodup he he' hc hc'

end Forest.WellFormed

/-!
## Positions of the walk
-/

/-- A node that the walk comes to, and what for. -/
abbrev Position := Purpose × NodeId

/-- The walk goes from the first position to the second. -/
inductive Next (f : Forest) : Position → Position → Prop
  | again {i : NodeId} {n : Node Slot} {p q : Purpose} (hn : f.node? (some i) = some n)
      (hq : n.again? p = some q) : Next f (p, i) (q, i)
  | child {i c : NodeId} {n : Node Slot} {p : Purpose} {e : Errand}
      (hn : f.node? (some i) = some n) (hagain : n.again? p = none) (he : e ∈ n.errands p)
      (hc : e.slot = some c) : Next f (p, i) (e.purpose, c)

/-- The walk from a root comes to a position. -/
def Reached (f : Forest) (root : NodeId) (x : Position) : Prop :=
  ReflTransGen (Next f) (.value .read, root) x

/-- The walk from a root records the use of a name. -/
structure Used (f : Forest) (root : NodeId) (kind : ReferenceKind) (name : String) (i : NodeId) :
    Prop where
  node : f.node? (some i) = some (.name .identifier name)
  reached : ∃ purpose, Reached f root (purpose, i) ∧ purpose.use? = some kind

/-- A node in a place where names are declared by a pattern. -/
inductive Forest.Binds (f : Forest) : NodeId → Prop
  | pattern {i p : NodeId} {n : Node Slot} (hn : f.node? (some p) = some n)
      (hi : .toTarget none (some i) ∈ n.valueErrands) : f.Binds i
  | deeper {i p : NodeId} {n : Node Slot} (h : f.Binds p) (hn : f.node? (some p) = some n)
      (hagain : n.again? (.target none) = none)
      (hi : .toTarget none (some i) ∈ n.targetErrands none) : f.Binds i

/-- The name of a function or of a class. -/
def Node.ownName : Node Slot → Slot
  | .function _ ident _ _ _ _ => ident
  | .classLike _ ident _ _ => ident
  | _ => none

/-- A node whose name is declared. -/
def Forest.Declares (f : Forest) (i : NodeId) : Prop :=
  f.Binds i ∨ ∃ p n, f.node? (some p) = some n ∧ n.ownName = some i

namespace Node

variable {n : Node Slot} {s : Slot} {i : NodeId} {k : Option ReferenceKind}

theorem again?_of_target_mem (h : .toTarget none s ∈ n.valueErrands) :
    (n.again? (.target k)).isSome := by
  have hvalue : ∀ {computed : Bool} {key value : Slot},
      .toTarget none s ∉ Errand.toValueIf computed key ++ [.toValue value] := by
    intro computed key value
    cases computed <;> simp [Errand.toValueIf, Errand.toTarget, Errand.toValue]
  have hchildren : .toTarget none s ∉
      (Forest.childrenOf n).map fun i => Errand.toValue (some i) := by
    simp [Errand.toTarget, Errand.toValue]
  cases n with
  | property _ _ _ _ => exact absurd h hvalue
  | bare _ | name _ _ | list _ _ | operand _ _ => exact absurd h hchildren
  | binary form left operator right =>
      cases form with
      | default => exact absurd h hchildren
      | _ => rfl
  | _ => rfl

theorem slots_ownName (h : n.ownName = some i) :
    (some i :: n.valueErrands.map Errand.slot).Sublist n.slots := by
  cases n with
  | function form ident parameters code isAsync isGenerator =>
      obtain rfl : ident = some i := h
      exact .cons_cons _ (by simp [valueErrands])
  | classLike form ident heritage members =>
      obtain rfl : ident = some i := h
      exact .cons_cons _ (by simp [valueErrands])
  | _ => cases h

theorem again?_of_ownName (h : n.ownName = some i) : (n.again? (.target k)).isSome := by
  cases n with
  | function _ _ _ _ _ _ | classLike _ _ _ _ => rfl
  | _ => cases h

end Node

namespace Forest.WellFormed

variable {f : Forest} {root i c : NodeId} {n : Node Slot} {p : Purpose} {e : Errand}

theorem link_of_errand (hf : f.WellFormed) (hn : f.node? (some i) = some n)
    (he : e ∈ n.errands p) (hc : e.slot = some c) : f.Link c i :=
  hf.link_of_slot hn (hc ▸ Node.mem_slots_of_errand he)

theorem link_of_ownName (hf : f.WellFormed) (hn : f.node? (some i) = some n)
    (hc : n.ownName = some c) : f.Link c i :=
  hf.link_of_slot hn ((Node.slots_ownName hc).subset List.mem_cons_self)

theorem exists_link_of_binds (hf : f.WellFormed) (hi : f.Binds i) : ∃ p, f.Link i p := by
  cases hi with
  | pattern hn hi => exact ⟨_, hf.link_of_errand (p := .value .read) hn hi rfl⟩
  | deeper _ hn _ hi => exact ⟨_, hf.link_of_errand (p := .target none) hn hi rfl⟩

/-- The walk comes to a pattern or a name that declares only to declare it. -/
theorem reached_of_binds (hf : f.WellFormed) (hroot : f.parent (some root) = none) {x : Position}
    (hreached : Reached f root x) (hi : f.Binds x.2) (hn : f.node? (some x.2) = some n)
    (hagain : n.again? (.target none) = none) : x.1 = .target none := by
  induction hreached generalizing n with
  | refl =>
      rcases hf.exists_link_of_binds hi with ⟨p, hlink⟩
      cases hroot.symm.trans hlink
  | tail _ hnext ih =>
      cases hnext with
      | @again _ _ p _ hm hq =>
          obtain rfl := Option.some.inj (hn.symm.trans hm)
          obtain rfl : p = .target none := ih hi hn hagain
          cases hagain.symm.trans hq
      | @child j c m p e hm hstop he hc =>
          have hlink := hf.link_of_errand hm he hc
          cases hi with
          | @pattern _ _ m' hm' hi =>
              obtain rfl := Link.unique hlink
                (hf.link_of_errand (p := .value .read) hm' hi rfl)
              obtain rfl := Option.some.inj (hm.symm.trans hm')
              cases p with
              | target kind =>
                  have hsome := Node.again?_of_target_mem (k := kind) hi
                  rw [hstop] at hsome
                  cases hsome
              | value kind => rw [hf.errand_unique (p := .value kind) hm he hi hc rfl]; rfl
          | @deeper _ _ m' hp hm' hagain' hi =>
              obtain rfl := Link.unique hlink
                (hf.link_of_errand (p := .target none) hm' hi rfl)
              obtain rfl := Option.some.inj (hm.symm.trans hm')
              obtain rfl : p = .target none := ih hp hm hagain'
              rw [hf.errand_unique (p := .target none) hm he hi hc rfl]
              rfl

/-- The walk does not come to the name of a function or of a class. -/
theorem not_reached_of_ownName (hf : f.WellFormed) (hroot : f.parent (some root) = none)
    {x : Position} (hn : f.node? (some i) = some n) (hi : n.ownName = some x.2) :
    ¬ Reached f root x := by
  intro hreached
  induction hreached with
  | refl => cases hroot.symm.trans (hf.link_of_ownName hn hi)
  | tail _ hnext ih =>
      cases hnext with
      | again _ _ => exact ih hi
      | @child j c m q e hm hstop he hc =>
          obtain rfl := Link.unique (hf.link_of_errand hm he hc) (hf.link_of_ownName hn hi)
          obtain rfl := Option.some.inj (hm.symm.trans hn)
          cases q with
          | target kind =>
              have hsome := Node.again?_of_ownName (k := kind) hi
              rw [hstop] at hsome
              cases hsome
          | value kind =>
              have hnodup := hf.nodup j
              rw [children_of_node? hm] at hnodup
              have hsub := (Node.slots_ownName hi).filterMap id
              rw [List.filterMap_cons_some (f := id) rfl, List.filterMap_map] at hsub
              refine (List.nodup_cons.mp (hnodup.sublist hsub)).1 ?_
              exact List.mem_filterMap.mpr ⟨e, he, hc⟩

end Forest.WellFormed

/-!
## Names in an outline
-/

/-- What a node declares its own name as. -/
def Node.ownKind? : Node Slot → Option BindingKind
  | .function .declaration _ _ _ _ _ => some .function
  | .function .expression _ _ _ _ _ => some .functionName
  | .classLike _ _ _ _ => some .«class»
  | _ => none

/-- The name is declared by a pattern, or by a node that declares its own name as this. -/
inductive Forest.DeclaresAs (f : Forest) (kind : BindingKind) (i : NodeId) : Prop
  | pattern (hi : f.Binds i) : f.DeclaresAs kind i
  | own {p : NodeId} {n : Node Slot} (hn : f.node? (some p) = some n)
      (hi : n.ownName = some i) (hkind : n.ownKind? = some kind) : f.DeclaresAs kind i

theorem Forest.DeclaresAs.declares {f : Forest} {kind : BindingKind} {i : NodeId}
    (h : f.DeclaresAs kind i) : f.Declares i := by
  cases h with
  | pattern hi => exact Or.inl hi
  | own hn hi _ => exact Or.inr ⟨_, _, hn, hi⟩

/-- Nothing but names that are declared is in the outline, each with its kind. -/
def Outline.Entitled (f : Forest) : Outline → Prop
  | done => True
  | declare _ kind _ nameNode _ rest => f.DeclaresAs kind nameNode ∧ rest.Entitled f
  | scope _ _ inside rest => inside.Entitled f ∧ rest.Entitled f
  | vars inside rest => inside.Entitled f ∧ rest.Entitled f
  | cut rest => rest.Entitled f

namespace Outline.Entitled

variable {f : Forest} {o o' : Outline}

theorem append (h : o.Entitled f) (h' : o'.Entitled f) : (o ++ o').Entitled f := by
  induction o with
  | done => exact h'
  | declare hoisted kind name nameNode declaration rest ih => exact ⟨h.1, ih h.2⟩
  | scope kind node inside rest _ ih => exact ⟨h.1, ih h.2⟩
  | vars inside rest _ ih => exact ⟨h.1, ih h.2⟩
  | cut rest ih => exact ih h

theorem concat {α : Type} {items : List α} {o : α → Outline} (h : ∀ a ∈ items, (o a).Entitled f) :
    (Outline.concat (items.map o)).Entitled f := by
  induction items with
  | nil => trivial
  | cons a items ih =>
      rw [List.forall_mem_cons] at h
      exact append h.1 (ih h.2)

theorem declares (h : o.Entitled f) : ∀ i ∈ o.names, f.Declares i := by
  induction o with
  | done => exact nofun
  | declare hoisted kind name nameNode declaration rest ih =>
      exact List.forall_mem_cons.mpr ⟨h.1.declares, ih h.2⟩
  | scope kind node inside rest ih ih' => exact List.forall_mem_append.mpr ⟨ih h.1, ih' h.2⟩
  | vars inside rest ih ih' => exact List.forall_mem_append.mpr ⟨ih h.1, ih' h.2⟩
  | cut rest ih => exact ih h

theorem nameOf {p : NodeId} {n : Node Slot} {kind : BindingKind} {declaration : NodeId}
    (hn : f.node? (some p) = some n) (hkind : n.ownKind? = some kind) :
    (Sketch.nameOf f kind n.ownName declaration).Entitled f := by
  unfold Sketch.nameOf
  split
  · rename_i i text hi _
    exact ⟨.own hn hi hkind, trivial⟩
  · trivial

end Outline.Entitled

namespace Sketch

structure Entitled (f : Forest) (k : Sketch) : Prop where
  node : ∀ s, (k.node s).Entitled f
  pattern : ∀ {names declaration s}, (∀ c, s = some c → f.Binds c) →
    (k.pattern names declaration s).Entitled f

variable {f : Forest} {k : Sketch} {i : NodeId} {n : Node Slot}

theorem Entitled.nodes (h : k.Entitled f) (slots : List Slot) : (k.nodes slots).Entitled f :=
  .concat fun s _ => h.node s

theorem Entitled.children (h : k.Entitled f) (n : Node Slot) : (k.children n).Entitled f :=
  .concat fun i _ => h.node (some i)

/-- A pattern that a node declares. -/
theorem Entitled.patternOf (h : k.Entitled f) (hn : f.node? (some i) = some n) {s : Slot}
    (hs : .toTarget none s ∈ n.valueErrands) {names : NameKind} {declaration : Option NodeId} :
    (k.pattern names declaration s).Entitled f := by
  refine h.pattern ?_
  rintro c rfl
  exact .pattern hn hs

/-- A pattern inside a pattern. -/
theorem Entitled.patternIn (h : k.Entitled f) (hi : f.Binds i) (hn : f.node? (some i) = some n)
    (hagain : n.again? (.target none) = none) {s : Slot}
    (hs : .toTarget none s ∈ n.targetErrands none) {names : NameKind}
    {declaration : Option NodeId} : (k.pattern names declaration s).Entitled f := by
  refine h.pattern ?_
  rintro c rfl
  exact .deeper hi hn hagain hs

theorem Entitled.functionBody (h : k.Entitled f) {form : FunctionForm} {ident code : Slot}
    {parameters : List Slot} {isAsync isGenerator : Bool}
    (hn : f.node? (some i) = some (.function form ident parameters code isAsync isGenerator)) :
    (k.functionBody f parameters code).Entitled f := by
  refine .append (.concat fun s hs => h.patternOf hn ?_) ?_
  · exact List.mem_append_left _ (List.mem_map_of_mem hs)
  · split
    · exact h.nodes _
    · exact h.node _
    · trivial

theorem Entitled.function (h : k.Entitled f) {form : FunctionForm} {ident code : Slot}
    {parameters : List Slot} {isAsync isGenerator : Bool}
    (hn : f.node? (some i) = some (.function form ident parameters code isAsync isGenerator)) :
    (k.function f i form ident parameters code).Entitled f := by
  have hbody := h.functionBody hn
  cases form with
  | declaration => exact .append (.nameOf hn rfl) ⟨.append trivial hbody, trivial⟩
  | expression => exact ⟨.append (.nameOf hn rfl) hbody, trivial⟩
  | arrow => exact ⟨.append trivial hbody, trivial⟩

theorem Entitled.declarator (h : k.Entitled f) (names : NameKind) (s : Slot) :
    (k.declarator f names s).Entitled f := by
  unfold Sketch.declarator
  split
  · rename_i i name initializer hn
    exact .append (h.patternOf hn List.mem_cons_self) (h.node _)
  · trivial

theorem Entitled.classLike (h : k.Entitled f) {form : ClassForm} {ident heritage : Slot}
    {members : List Slot}
    (hn : f.node? (some i) = some (.classLike form ident heritage members)) :
    (k.classLike f i form ident (.classLike form ident heritage members)).Entitled f := by
  have hinside : (nameOf f .«class» ident i ++
      k.children (.classLike form ident heritage members)).Entitled f :=
    .append (.nameOf hn rfl) (h.children _)
  cases form with
  | declaration => exact hinside
  | expression => exact ⟨hinside, trivial⟩

theorem Entitled.handler (h : k.Entitled f) {parameter block : Slot}
    (hn : f.node? (some i) = some (.catchClause parameter block)) :
    (k.handler f i parameter block).Entitled f := by
  refine ⟨.append (h.patternOf hn List.mem_cons_self) ?_, trivial⟩
  split
  · exact h.nodes _
  · trivial

theorem Entitled.ofNode (h : k.Entitled f) (hn : f.node? (some i) = some n) :
    (k.ofNode f i n).Entitled f := by
  unfold Sketch.ofNode
  split
  · exact h.function hn
  · exact ⟨.concat fun s _ => h.declarator _ s, trivial⟩
  · exact h.classLike hn
  · exact ⟨h.nodes _, trivial⟩
  · exact ⟨h.nodes _, trivial⟩
  · exact ⟨h.children _, trivial⟩
  · exact ⟨h.children _, trivial⟩
  · exact .append (h.node _) ⟨h.nodes _, trivial⟩
  · exact h.handler hn
  · exact h.children n

theorem Entitled.ofPattern (h : k.Entitled f) (hi : f.Binds i) (hn : f.node? (some i) = some n)
    (names : NameKind) (declaration : Option NodeId) :
    (k.ofPattern names declaration i n).Entitled f := by
  unfold Sketch.ofPattern
  split
  · exact ⟨.pattern hi, trivial⟩
  · exact .concat fun s hs => h.patternIn hi hn rfl (List.mem_map_of_mem hs)
  · exact .concat fun s hs => h.patternIn hi hn rfl (List.mem_map_of_mem hs)
  · refine .append ?_ (h.patternIn hi hn rfl (List.mem_append_right _ List.mem_cons_self))
    split
    · exact h.node _
    · trivial
  · exact .append (h.patternIn hi hn rfl List.mem_cons_self) (h.node _)
  · exact h.patternIn hi hn rfl List.mem_cons_self
  · trivial

theorem entitled_ofDepth (f : Forest) (depth : Nat) : (ofDepth f depth).Entitled f := by
  induction depth with
  | zero => exact ⟨fun _ => trivial, fun _ => trivial⟩
  | succ depth ih =>
      constructor
      · intro s
        unfold ofDepth
        dsimp only
        split
        · exact ih.ofNode ‹_›
        · trivial
      · intro names declaration s hs
        unfold ofDepth
        dsimp only
        split
        · exact ih.ofPattern (hs _ rfl) ‹_› names declaration
        · trivial

end Sketch
end Untangle
