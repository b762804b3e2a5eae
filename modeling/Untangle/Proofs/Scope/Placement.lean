import Untangle.Proofs.Scope.Chart
import Untangle.Proofs.Scope.Uses

/-!
# Where an outline comes from

Everything that the outline of a subtree mentions lies in that subtree, and nothing is mentioned
twice: no node opens two scopes, no name is declared twice, and no node declares two names.
-/

namespace Untangle

open Forest

/-!
## Nodes of an outline
-/

namespace Outline

/-- What an outline mentions nodes for. -/
inductive Part
  | names | openers | declarers
  deriving DecidableEq

def Part.ofName : Part → (nameNode declaration : NodeId) → List NodeId
  | names, nameNode, _ => [nameNode]
  | openers, _, _ => []
  | declarers, _, declaration => [declaration]

def Part.ofScope : Part → (node : NodeId) → List NodeId
  | openers, node => [node]
  | _, _ => []

def nodes (part : Part) : Outline → List NodeId
  | done => []
  | declare _ _ _ nameNode declaration rest =>
      part.ofName nameNode declaration ++ rest.nodes part
  | scope _ node inside rest => part.ofScope node ++ (inside.nodes part ++ rest.nodes part)
  | vars inside rest => inside.nodes part ++ rest.nodes part
  | cut rest => rest.nodes part

variable {part : Part} {w i : NodeId}

theorem Part.nodup_ofScope (part : Part) (i : NodeId) : (part.ofScope i).Nodup := by
  cases part with
  | openers => exact List.nodup_singleton i
  | names => exact List.nodup_nil
  | declarers => exact List.nodup_nil

@[simp] theorem nodes_append (o o' : Outline) :
    (o ++ o').nodes part = o.nodes part ++ o'.nodes part := by
  induction o with
  | done => rfl
  | declare hoisted kind name nameNode declaration rest ih =>
      exact (congrArg (part.ofName nameNode declaration ++ ·) ih).trans
        (List.append_assoc ..).symm
  | scope kind node inside rest _ ih =>
      have h := congrArg (fun l => part.ofScope node ++ (inside.nodes part ++ l)) ih
      exact h.trans (by simp [nodes])
  | vars inside rest _ ih =>
      exact (congrArg (inside.nodes part ++ ·) ih).trans (List.append_assoc ..).symm
  | cut rest ih => exact ih

theorem nodes_names (o : Outline) : o.nodes .names = o.names := by
  induction o with
  | done => rfl
  | declare hoisted kind name nameNode declaration rest ih => exact congrArg (nameNode :: ·) ih
  | scope kind node inside rest ih ih' =>
      have h : inside.nodes .names ++ rest.nodes .names = inside.names ++ rest.names :=
        congrArg₂ (· ++ ·) ih ih'
      exact h
  | vars inside rest ih ih' => exact congrArg₂ (· ++ ·) ih ih'
  | cut rest ih => exact ih

theorem nodes_openers (o : Outline) : o.nodes .openers = o.openers := by
  induction o with
  | done => rfl
  | declare hoisted kind name nameNode declaration rest ih => exact ih
  | scope kind node inside rest ih ih' =>
      exact congrArg (node :: ·) (congrArg₂ (· ++ ·) ih ih')
  | vars inside rest ih ih' => exact congrArg₂ (· ++ ·) ih ih'
  | cut rest ih => exact ih

/-!
## Placed outlines
-/

/-- The nodes that the outline mentions are different and lie below these slots, apart from one
that may lie above them. -/
structure Placed (f : Forest) (part : Part) (own : Option NodeId) (slots : List Slot)
    (o : Outline) : Prop where
  within : ∀ w ∈ o.nodes part, own = some w ∨ ∃ r, some r ∈ slots ∧ f.Within w r
  nodup : (o.nodes part).Nodup

namespace Placed

variable {f : Forest} {own : Option NodeId} {slots slots' : List Slot} {o o' : Outline}
  {p : NodeId} {n : Node Slot}

theorem empty (h : o.nodes part = []) : Placed f part own slots o := by
  constructor
  · intro w hw
    rw [h] at hw
    cases hw
  · rw [h]
    exact List.nodup_nil

theorem done : Placed f part own slots .done :=
  empty rfl

theorem mono (h : Placed f part own slots o) (hslots : slots ⊆ slots') :
    Placed f part own slots' o := by
  refine ⟨fun w hw => ?_, h.nodup⟩
  rcases h.within w hw with hown | ⟨r, hr, hpath⟩
  · exact Or.inl hown
  · exact Or.inr ⟨r, hslots hr, hpath⟩

theorem guest (h : Placed f part none slots o) : Placed f part own slots o := by
  refine ⟨fun w hw => ?_, h.nodup⟩
  exact Or.inr ((h.within w hw).resolve_left nofun)

/-- A node above a slot that the outline mentions is not below another slot. -/
theorem disjoint (h : Placed f part own slots o) (h' : Placed f part none slots' o')
    (hf : f.WellFormed) (hn : f.node? (some p) = some n)
    (hsub : (slots ++ slots').Sublist n.slots) (hown : ∀ d, own = some d → f.Within p d) :
    (o.nodes part).Disjoint (o'.nodes part) := by
  intro w hw hw'
  rcases (h'.within w hw').resolve_left nofun with ⟨r', hr', hpath'⟩
  have hlink' : f.Link r' p :=
    hf.linked.mpr (children_of_node? hn ▸ mem_childrenOf.mpr
      (hsub.subset (List.mem_append_right _ hr')))
  rcases h.within w hw with heq | ⟨r, hr, hpath⟩
  · exact hf.not_within_of_link hlink' ((hown w heq).trans hpath')
  · have hlink : f.Link r p :=
      hf.linked.mpr (children_of_node? hn ▸ mem_childrenOf.mpr
        (hsub.subset (List.mem_append_left _ hr)))
    have hnodup := hf.nodup p
    rw [children_of_node? hn] at hnodup
    have hapart := hnodup.sublist (hsub.filterMap id)
    rw [List.filterMap_append, List.nodup_append'] at hapart
    obtain rfl := hf.siblings_disjoint hlink hlink' hpath hpath'
    exact hapart.2.2 (List.mem_filterMap.mpr ⟨_, hr, rfl⟩) (List.mem_filterMap.mpr ⟨_, hr', rfl⟩)

theorem append (h : Placed f part own slots o) (h' : Placed f part none slots' o')
    (hf : f.WellFormed) (hn : f.node? (some p) = some n)
    (hsub : (slots ++ slots').Sublist n.slots) (hown : ∀ d, own = some d → f.Within p d) :
    Placed f part own (slots ++ slots') (o ++ o') := by
  constructor
  · intro w hw
    rw [nodes_append, List.mem_append] at hw
    rcases hw with hw | hw
    · exact (h.mono (List.subset_append_left ..)).within w hw
    · exact (h'.mono (List.subset_append_right ..)).guest.within w hw
  · rw [nodes_append]
    exact List.nodup_append'.mpr ⟨h.nodup, h'.nodup, h.disjoint h' hf hn hsub hown⟩

theorem concat {o : Slot → Outline} (hf : f.WellFormed) (hn : f.node? (some p) = some n)
    (hsub : slots.Sublist n.slots) (h : ∀ s ∈ slots, Placed f part none [s] (o s)) :
    Placed f part none slots (Outline.concat (slots.map o)) := by
  induction slots with
  | nil => exact done
  | cons s slots ih =>
      rw [List.forall_mem_cons] at h
      have hrest := ih ((List.sublist_cons_self s slots).trans hsub) h.2
      exact h.1.append hrest hf hn hsub nofun

/-- What lies below the slots of a node lies below the node. -/
theorem up (h : Placed f part own slots o) (hf : f.WellFormed) (hn : f.node? (some p) = some n)
    (hslots : slots ⊆ n.slots) : Placed f part own [some p] o := by
  refine ⟨fun w hw => ?_, h.nodup⟩
  rcases h.within w hw with hown | ⟨r, hr, hpath⟩
  · exact Or.inl hown
  · have hlink : f.Link r p :=
      hf.linked.mpr (children_of_node? hn ▸ mem_childrenOf.mpr (hslots hr))
    exact Or.inr ⟨p, List.mem_singleton_self _, hpath.tail hlink⟩

theorem absorb (h : Placed f part own slots o) (hown : ∀ d, own = some d → some d ∈ slots) :
    Placed f part none slots o := by
  refine ⟨fun w hw => Or.inr ?_, h.nodup⟩
  rcases h.within w hw with heq | hbelow
  · exact ⟨w, hown w heq, .refl⟩
  · exact hbelow

theorem behindEmpty (h : Placed f part own slots o') (ho : o.nodes part = []) :
    Placed f part own slots (o ++ o') := by
  have hnodes : (o ++ o').nodes part = o'.nodes part := by
    rw [nodes_append, ho, List.nil_append]
  exact ⟨hnodes ▸ h.within, hnodes ▸ h.nodup⟩

theorem vars (h : Placed f part own slots o) : Placed f part own slots (.vars o .done) := by
  have hnodes : (Outline.vars o .done).nodes part = o.nodes part := List.append_nil _
  exact ⟨hnodes ▸ h.within, hnodes ▸ h.nodup⟩

/-- A node declares or walks something and then opens its scope. -/
theorem thenScope {kind : ScopeKind} (h : Placed f part own slots o)
    (h' : Placed f part own slots' o') (hf : f.WellFormed) (hn : f.node? (some p) = some n)
    (hsub : (slots ++ slots').Sublist n.slots) (hone : o.nodes part = [] ∨
      Placed f part none slots' o') (hown : ∀ d, own = some d → d = p ∧ part ≠ .openers) :
    Placed f part none [some p] (o ++ .scope kind p o' .done) := by
  have hlink : ∀ r, some r ∈ slots ++ slots' → f.Link r p := fun r hr =>
    hf.linked.mpr (children_of_node? hn ▸ mem_childrenOf.mpr (hsub.subset hr))
  have hnodes : (o ++ Outline.scope kind p o' .done).nodes part =
      o.nodes part ++ (part.ofScope p ++ o'.nodes part) := by
    simp [Outline.nodes]
  have hbelow : ∀ {own' slots'' o''}, Placed f part own' slots'' o'' →
      slots'' ⊆ slots ++ slots' → own' = own → ∀ w ∈ o''.nodes part,
        f.Within w p ∧ (part = .openers → w ≠ p) := by
    rintro own' slots'' o'' h'' hsub' rfl w hw
    rcases h''.within w hw with heq | ⟨r, hr, hpath⟩
    · rcases hown w heq with ⟨rfl, hpart⟩
      exact ⟨.refl, fun h => absurd h hpart⟩
    · refine ⟨hpath.tail (hlink r (hsub' hr)), fun _ heq => ?_⟩
      exact hf.not_within_of_link (hlink r (hsub' hr)) (heq ▸ hpath)
  have hleft := hbelow h (List.subset_append_left ..) rfl
  have hright := hbelow h' (List.subset_append_right ..) rfl
  have hscope : ∀ w ∈ part.ofScope p, w = p ∧ part = .openers := by
    intro w hw
    cases part with
    | openers => exact ⟨List.mem_singleton.mp hw, rfl⟩
    | names => cases hw
    | declarers => cases hw
  have hapart : (o.nodes part).Disjoint (o'.nodes part) := by
    rcases hone with hnone | hplaced
    · rw [hnone]
      exact List.disjoint_nil_left _
    · refine h.disjoint hplaced hf hn hsub fun d hd => ?_
      rw [(hown d hd).1]
      exact .refl
  constructor
  · intro w hw
    refine Or.inr ⟨p, List.mem_singleton_self _, ?_⟩
    rw [hnodes, List.mem_append, List.mem_append] at hw
    rcases hw with hw | hw | hw
    · exact (hleft w hw).1
    · rw [(hscope w hw).1]
      exact .refl
    · exact (hright w hw).1
  · rw [hnodes, List.nodup_append', List.nodup_append']
    refine ⟨h.nodup, ⟨part.nodup_ofScope p, h'.nodup, ?_⟩, ?_⟩
    · intro w hw hw'
      exact (hright w hw').2 (hscope w hw).2 (hscope w hw).1
    · intro w hw hw'
      rcases List.mem_append.mp hw' with hw' | hw'
      · exact (hleft w hw).2 (hscope w hw').2 (hscope w hw').1
      · exact hapart hw hw'

theorem scope {kind : ScopeKind} (h : Placed f part none slots o) (hf : f.WellFormed)
    (hn : f.node? (some p) = some n) (hsub : slots.Sublist n.slots) :
    Placed f part none [some p] (.scope kind p o .done) := by
  have hbefore : Placed f part none [] .done := done
  exact hbefore.thenScope h hf hn hsub (Or.inl rfl) nofun

end Placed

/-- A declaring node counts as mentioned where declaring nodes are collected. -/
def Part.owner : Part → NodeId → Option NodeId
  | declarers, i => some i
  | _, _ => none

theorem Part.eq_of_owner {d : NodeId} (h : part.owner i = some d) :
    d = i ∧ part ≠ .openers := by
  cases part with
  | declarers => exact ⟨(Option.some.inj h).symm, nofun⟩
  | names => cases h
  | openers => cases h

theorem Part.eq_of_bind_owner {D : Option NodeId} {d : NodeId} (h : D.bind part.owner = some d) :
    D = some d := by
  rcases Option.bind_eq_some_iff.mp h with ⟨e, he, howner⟩
  rw [he, (eq_of_owner howner).1]

end Outline

/-!
## Outlines of trees
-/

namespace Sketch

open Outline

/-- The outlines of subtrees mention nodes of the subtrees only. -/
structure Places (f : Forest) (part : Part) (k : Sketch) : Prop where
  node : ∀ s, Outline.Placed f part none [s] (k.node s)
  pattern : ∀ {names D s}, (∀ d i, D = some d → s = some i → f.Within i d) →
    Outline.Placed f part (D.bind part.owner) [s] (k.pattern names D s)
  /-- A name by itself declares nothing. -/
  leaf : ∀ {i text}, f.node? (some i) = some (.name .identifier text) →
    (k.node (some i)).nodes part = []

variable {f : Forest} {part : Part} {k : Sketch} {p : NodeId} {n : Node Slot}

theorem Places.nodes {slots : List Slot} (h : k.Places f part) (hf : f.WellFormed)
    (hn : f.node? (some p) = some n) (hsub : slots.Sublist n.slots) :
    Outline.Placed f part none slots (k.nodes slots) :=
  .concat hf hn hsub fun s _ => h.node s

theorem Places.children (h : k.Places f part) (hf : f.WellFormed)
    (hn : f.node? (some p) = some n) :
    Outline.Placed f part none n.slots (k.children n) := by
  have hsub : ((childrenOf n).map some).Sublist n.slots := Errand.map_some_filterMap n.slots
  have hplaced := h.nodes hf hn hsub
  rw [Sketch.nodes, List.map_map] at hplaced
  exact hplaced.mono hsub.subset

/-- A pattern whose names are their own declarations. -/
theorem Places.bare (h : k.Places f part) (names : NameKind) (s : Slot) :
    Outline.Placed f part none [s] (k.pattern names none s) :=
  @Places.pattern _ _ _ h names none s nofun

/-- The statements of a block in a slot. -/
theorem Places.block {s : Slot} {form : BodyForm} {statements : List Slot}
    (h : k.Places f part) (hf : f.WellFormed) (hs : f.node? s = some (.body form statements)) :
    Outline.Placed f part none [s] (k.nodes statements) := by
  cases s with
  | none => cases hs
  | some c => exact (h.nodes hf hs (.refl _)).up hf hs (List.Subset.refl _)

theorem placed_nameOf {kind : BindingKind} {s : Slot} {i : NodeId} :
    Outline.Placed f part (part.owner i) [s] (nameOf f kind s i) := by
  unfold nameOf
  split
  · rename_i j text _
    cases part with
    | names =>
        refine ⟨fun w hw => Or.inr ⟨j, List.mem_singleton_self _, ?_⟩, List.nodup_singleton j⟩
        rw [List.mem_singleton.mp hw]
        exact .refl
    | openers => exact .empty rfl
    | declarers =>
        refine ⟨fun w hw => Or.inl ?_, List.nodup_singleton i⟩
        rw [List.mem_singleton.mp hw]
        rfl
  · exact .done

theorem Places.functionBody (h : k.Places f part) (hf : f.WellFormed) {parameters : List Slot}
    {code : Slot} (hn : f.node? (some p) = some n)
    (hsub : (parameters ++ [code]).Sublist n.slots) :
    Outline.Placed f part none (parameters ++ [code]) (k.functionBody f parameters code) := by
  have hparameters : Outline.Placed f part none parameters
      (concat (parameters.map (k.pattern ⟨false, .parameter⟩ none))) := by
    exact .concat hf hn ((List.sublist_append_left ..).trans hsub) fun s _ => h.bare _ s
  refine hparameters.append ?_ hf hn hsub nofun
  split
  · exact h.block hf ‹_›
  · exact h.node code
  · exact .done

theorem Places.function (h : k.Places f part) (hf : f.WellFormed) {form : FunctionForm}
    {ident code : Slot} {parameters : List Slot} {isAsync isGenerator : Bool}
    (hn : f.node? (some p) = some (.function form ident parameters code isAsync isGenerator)) :
    Outline.Placed f part none [some p] (k.function f p form ident parameters code) := by
  have hbody := h.functionBody hf hn (List.sublist_cons_self _ _)
  have hname : ∀ kind, Outline.Placed f part (part.owner p) [ident] (nameOf f kind ident p) :=
    fun kind => placed_nameOf
  have hsub : ([ident] ++ (parameters ++ [code])).Sublist
      (Node.function form ident parameters code isAsync isGenerator).slots := .refl _
  have howner : ∀ d, part.owner p = some d → d = p ∧ part ≠ .openers :=
    fun d => Part.eq_of_owner
  cases form with
  | declaration =>
      exact (hname _).thenScope hbody.guest hf hn hsub (Or.inr hbody) howner
  | expression =>
      have hinside := (hname .functionName).append hbody hf hn hsub fun d hd => by
        rw [(howner d hd).1]
        exact .refl
      have hbefore : Outline.Placed f part (part.owner p) [] .done := .done
      exact hbefore.thenScope hinside hf hn hsub (Or.inl rfl) howner
  | arrow =>
      have hbefore : Outline.Placed f part none [] .done := .done
      exact hbefore.thenScope hbody hf hn (List.sublist_cons_self _ _) (Or.inl rfl) nofun

theorem Places.declarator (h : k.Places f part) (hf : f.WellFormed) (names : NameKind)
    (s : Slot) : Outline.Placed f part none [s] (k.declarator f names s) := by
  unfold Sketch.declarator
  split
  · rename_i i name initializer hn
    have hname : Outline.Placed f part (part.owner i) [name] (k.pattern names (some i) name) := by
      refine @Places.pattern _ _ _ h names (some i) name ?_
      rintro d c hd rfl
      obtain rfl := Option.some.inj hd
      have hmem : some c ∈ (Node.declarator (some c) initializer).slots := List.mem_cons_self
      exact .single (hf.link_of_slot hn hmem)
    have hboth := hname.append (h.node initializer) hf hn (.refl _) fun d hd => by
      rw [(Part.eq_of_owner hd).1]
      exact .refl
    refine (hboth.up hf hn (List.Subset.refl _)).absorb fun d hd => ?_
    rw [(Part.eq_of_owner hd).1]
    exact List.mem_singleton_self _
  · exact .done

theorem Places.classLike (h : k.Places f part) (hf : f.WellFormed) {form : ClassForm}
    {ident heritage : Slot} {members : List Slot}
    (hn : f.node? (some p) = some (.classLike form ident heritage members)) :
    Outline.Placed f part none [some p]
      (k.classLike f p form ident (.classLike form ident heritage members)) := by
  have hinside : Outline.Placed f part (part.owner p) (ident :: heritage :: members)
      (nameOf f .«class» ident p ++ k.children (.classLike form ident heritage members)) := by
    by_cases hempty : (nameOf f .«class» ident p).nodes part = []
    · exact (h.children hf hn).guest.behindEmpty hempty
    · -- The name is a child as well, but as a child it declares nothing.
      obtain ⟨i, text, rfl, htext⟩ : ∃ i text, ident = some i ∧
          f.node? (some i) = some (.name .identifier text) := by
        unfold nameOf at hempty
        split at hempty
        · rename_i i text htext
          rcases Option.bind_eq_some_iff.mp htext with ⟨m, hm, hname⟩
          refine ⟨i, text, rfl, ?_⟩
          cases m with
          | name form text' =>
              cases form with
              | identifier =>
                  obtain rfl : text' = text := Option.some.inj hname
                  exact hm
              | privateName => cases hname
          | _ => cases hname
        · exact absurd rfl hempty
      have hrest : Outline.Placed f part none (heritage :: members)
          (concat ((((heritage :: members).filterMap id).map some).map k.node)) := by
        have hsub := Errand.map_some_filterMap (heritage :: members)
        exact (h.nodes hf hn (hsub.trans (List.sublist_cons_self _ _))).mono hsub.subset
      have hall : k.children (.classLike form (some i) heritage members) = k.node (some i) ++
          concat ((((heritage :: members).filterMap id).map some).map k.node) := by
        rw [List.map_map]
        rfl
      rw [hall]
      refine placed_nameOf.append (hrest.behindEmpty (h.leaf htext)) hf hn (.refl _) ?_
      intro d hd
      rw [(Part.eq_of_owner hd).1]
      exact .refl
  cases form with
  | declaration =>
      refine (hinside.up hf hn (List.Subset.refl _)).absorb fun d hd => ?_
      rw [(Part.eq_of_owner hd).1]
      exact List.mem_singleton_self _
  | expression =>
      have hbefore : Outline.Placed f part (part.owner p) [] .done := .done
      exact hbefore.thenScope hinside hf hn (.refl _) (Or.inl rfl) fun d => Part.eq_of_owner

theorem Places.handler (h : k.Places f part) (hf : f.WellFormed) {parameter block : Slot}
    (hn : f.node? (some p) = some (.catchClause parameter block)) :
    Outline.Placed f part none [some p] (k.handler f p parameter block) := by
  have hparameter : Outline.Placed f part none [parameter]
      (k.pattern ⟨false, .catchParameter⟩ parameter parameter) := by
    refine (h.pattern ?_).absorb fun d hd => ?_
    · rintro d i rfl hi
      obtain rfl := Option.some.inj hi
      exact .refl
    · rw [Part.eq_of_bind_owner hd]
      exact List.mem_singleton_self _
  refine (hparameter.append ?_ hf hn (.refl _) nofun).scope hf hn (.refl _)
  split
  · exact h.block hf ‹_›
  · exact .done

theorem Places.ofNode (h : k.Places f part) (hf : f.WellFormed)
    (hn : f.node? (some p) = some n) :
    Outline.Placed f part none [some p] (k.ofNode f p n) := by
  unfold Sketch.ofNode
  split
  · exact h.function hf hn
  · rename_i kind declarators
    have hdeclarators := Placed.concat hf hn (.refl declarators) fun s _ =>
      h.declarator hf ⟨kind == .«var», kind.bindingKind⟩ s
    exact (hdeclarators.up hf hn (List.Subset.refl _)).vars
  · exact h.classLike hf hn
  · exact (h.nodes hf hn (.refl _)).scope hf hn (.refl _)
  · exact (h.nodes hf hn (.refl _)).scope hf hn (.refl _)
  · exact (h.children hf hn).scope hf hn (.refl _)
  · exact (h.children hf hn).scope hf hn (.refl _)
  · rename_i subject clauses
    have hclauses := h.nodes hf hn (List.sublist_cons_self subject clauses)
    exact (h.node subject).thenScope hclauses hf hn (.refl _) (Or.inr hclauses) nofun
  · exact h.handler hf hn
  · exact (h.children hf hn).up hf hn (List.Subset.refl _)

theorem Places.ofPattern (h : k.Places f part) (hf : f.WellFormed)
    (hn : f.node? (some p) = some n) (names : NameKind) {D : Option NodeId}
    (hD : ∀ d, D = some d → f.Within p d) :
    Outline.Placed f part (D.bind part.owner) [some p] (k.ofPattern names D p n) := by
  have helements : ∀ {elements : List Slot}, elements.Sublist n.slots →
      Outline.Placed f part (D.bind part.owner) [some p]
        (concat (elements.map (k.pattern names none))) := by
    intro elements hsub
    have hplaced : Outline.Placed f part none elements
        (concat (elements.map (k.pattern names none))) :=
      .concat hf hn hsub fun s _ => h.bare names s
    exact (hplaced.up hf hn hsub.subset).guest
  unfold Sketch.ofPattern
  split
  · rename_i text
    cases part with
    | names =>
        refine ⟨fun w hw => Or.inr ⟨p, List.mem_singleton_self _, ?_⟩, List.nodup_singleton p⟩
        rw [List.mem_singleton.mp hw]
        exact .refl
    | openers => exact .empty rfl
    | declarers =>
        refine ⟨fun w hw => ?_, List.nodup_singleton _⟩
        rw [List.mem_singleton.mp hw]
        cases D with
        | some d => exact Or.inl rfl
        | none => exact Or.inr ⟨p, List.mem_singleton_self _, .refl⟩
  · exact helements (.refl _)
  · exact helements (.refl _)
  · rename_i form key value computed
    have hkey : Outline.Placed f part none [key] (if computed then k.node key else .done) := by
      split
      · exact h.node key
      · exact .done
    exact ((hkey.append (h.bare names value) hf hn (.refl _) nofun).up hf hn (List.Subset.refl _)).guest
  · rename_i target operator value
    have htarget : Outline.Placed f part (D.bind part.owner) [target]
        (k.pattern names D target) := by
      apply h.pattern
      rintro d c hd rfl
      have hmem : some c ∈ (Node.binary .default (some c) operator value).slots :=
        List.mem_cons_self
      exact .head (hf.link_of_slot hn hmem) (hD d hd)
    have hboth := htarget.append (h.node value) hf hn (.refl _) fun d hd =>
      hD d (Part.eq_of_bind_owner hd)
    exact hboth.up hf hn (List.Subset.refl _)
  · rename_i target
    exact ((h.bare names target).up hf hn (List.Subset.refl _)).guest
  · exact .done

theorem places_ofDepth (hf : f.WellFormed) (part : Part) (depth : Nat) :
    (ofDepth f depth).Places f part := by
  induction depth with
  | zero => exact ⟨fun _ => .empty rfl, fun _ => .empty rfl, fun _ => rfl⟩
  | succ depth ih =>
      constructor
      · intro s
        unfold ofDepth
        dsimp only
        split
        · exact ih.ofNode hf ‹_›
        · exact .done
      · intro names D s hD
        unfold ofDepth
        dsimp only
        split
        · exact ih.ofPattern hf ‹_› names fun d hd => hD d _ hd rfl
        · exact .done
      · intro i text hi
        simp only [ofDepth, hi]
        rfl

end Sketch

/-!
## Nesting
-/

/-- The node is a function declaration with this name. -/
def Forest.DeclaresFunction (f : Forest) (i : NodeId) (ident : Slot) : Prop :=
  ∃ parameters code isAsync isGenerator,
    f.node? (some i) = some (.function .declaration ident parameters code isAsync isGenerator)

/-- A name lies in its declaration, and what is inside a scope lies in the node that opens it. A
function declaration declares its own name only, as a function, and `var` declarations inside it
belong to its scope. -/
def Outline.Nested (f : Forest) : Outline → Prop
  | done => True
  | declare _ kind _ nameNode declaration rest =>
      f.Within nameNode declaration ∧
        (∀ ident, f.DeclaresFunction declaration ident →
          ident = some nameNode ∧ kind = .function) ∧ rest.Nested f
  | scope kind node inside rest =>
      ((∀ part, ∀ w ∈ inside.nodes part, f.Within w node) ∧
        ∀ ident, f.DeclaresFunction node ident → kind.isHoistingTarget = true) ∧
          inside.Nested f ∧ rest.Nested f
  | vars inside rest => inside.Nested f ∧ rest.Nested f
  | cut rest => rest.Nested f

namespace Outline.Nested

variable {f : Forest} {o o' : Outline} {i : NodeId}

theorem append (h : o.Nested f) (h' : o'.Nested f) : (o ++ o').Nested f := by
  induction o with
  | done => exact h'
  | declare hoisted kind name nameNode declaration rest ih => exact ⟨h.1, h.2.1, ih h.2.2⟩
  | scope kind node inside rest _ ih => exact ⟨h.1, h.2.1, ih h.2.2⟩
  | vars inside rest _ ih => exact ⟨h.1, ih h.2⟩
  | cut rest ih => exact ih h

theorem concat {α : Type} {items : List α} {o : α → Outline} (h : ∀ a ∈ items, (o a).Nested f) :
    (Outline.concat (items.map o)).Nested f := by
  induction items with
  | nil => trivial
  | cons a items ih =>
      rw [List.forall_mem_cons] at h
      exact append h.1 (ih h.2)

theorem ite {c : Prop} [Decidable c] (h : o.Nested f) (h' : o'.Nested f) :
    (if c then o else o').Nested f := by
  split
  · exact h
  · exact h'

/-- The scope of a node all of whose outline is known to lie in its subtree. -/
theorem thenScope {kind : ScopeKind} (h : o.Nested f) (h' : o'.Nested f)
    (hplaced : ∀ part, Placed f part none [some i] (o ++ scope kind i o' done))
    (hkind : ∀ ident, f.DeclaresFunction i ident → kind.isHoistingTarget = true) :
    (o ++ scope kind i o' done).Nested f := by
  refine h.append ⟨⟨fun part w hw => ?_, hkind⟩, h', trivial⟩
  have hmem : w ∈ (o ++ scope kind i o' done).nodes part := by
    rw [nodes_append, List.mem_append]
    exact Or.inr (List.mem_append_right _ (List.mem_append_left _ hw))
  rcases ((hplaced part).within w hmem).resolve_left nofun with ⟨r, hr, hpath⟩
  obtain rfl := Option.some.inj (List.mem_singleton.mp hr)
  exact hpath

theorem scope {kind : ScopeKind} (h : o.Nested f)
    (hplaced : ∀ part, Placed f part none [some i] (.scope kind i o .done))
    (hkind : ∀ ident, f.DeclaresFunction i ident → kind.isHoistingTarget = true) :
    (Outline.scope kind i o .done).Nested f := by
  have hbefore : Nested f done := trivial
  exact hbefore.thenScope h hplaced hkind

end Outline.Nested

namespace Sketch

variable {f : Forest} {k : Sketch} {p : NodeId} {n : Node Slot} {s : Slot}

structure Nests (f : Forest) (k : Sketch) : Prop where
  node : ∀ s, (k.node s).Nested f
  pattern : ∀ {names D s}, (∀ d i, D = some d → s = some i → f.Within i d ∧
    ∀ ident, f.DeclaresFunction d ident → d = i) → (k.pattern names D s).Nested f

theorem Nests.nodes (h : k.Nests f) (slots : List Slot) : (k.nodes slots).Nested f :=
  .concat fun s _ => h.node s

theorem Nests.children (h : k.Nests f) (n : Node Slot) : (k.children n).Nested f :=
  .concat fun i _ => h.node (some i)

theorem Nests.bare (h : k.Nests f) (names : NameKind) (s : Slot) :
    (k.pattern names none s).Nested f :=
  h.pattern nofun

/-- A node of another kind is no function declaration. -/
theorem not_declaresFunction {ident : Slot} (hn : f.node? (some p) = some n)
    (hkind : n.isFunction = false) : ¬ f.DeclaresFunction p ident := by
  rintro ⟨parameters, code, isAsync, isGenerator, hfunction⟩
  obtain rfl := Option.some.inj (hn.symm.trans hfunction)
  cases hkind

theorem nested_nameOf (hf : f.WellFormed) {kind : BindingKind}
    (hn : f.node? (some p) = some n) (hown : n.ownName = s)
    (hkind : ∀ ident, f.DeclaresFunction p ident → kind = .function) :
    (nameOf f kind s p).Nested f := by
  unfold nameOf
  split
  · rename_i i text _
    have hslot := (Node.slots_ownName hown).subset List.mem_cons_self
    refine ⟨.single (hf.link_of_slot hn hslot), fun ident hp => ⟨?_, hkind ident hp⟩, trivial⟩
    rcases hp with ⟨parameters, code, isAsync, isGenerator, hfunction⟩
    obtain rfl := Option.some.inj (hn.symm.trans hfunction)
    exact hown
  · trivial

theorem Nests.block (h : k.Nests f) (s : Slot) {o : Outline} (ho : o.Nested f) :
    (match f.node? s with
      | some (.body .block statements) => k.nodes statements
      | some _ => o
      | none => .done).Nested f := by
  split
  · exact h.nodes _
  · exact ho
  · trivial

theorem Nests.function (h : k.Nests f) (hf : f.WellFormed)
    (hplaces : ∀ part, k.Places f part) {form : FunctionForm} {ident code : Slot}
    {parameters : List Slot} {isAsync isGenerator : Bool}
    (hn : f.node? (some p) = some (.function form ident parameters code isAsync isGenerator)) :
    (k.function f p form ident parameters code).Nested f := by
  have hbody : (k.functionBody f parameters code).Nested f :=
    (Outline.Nested.concat fun s _ => h.bare _ s).append (h.block code (h.node code))
  have hplaced := fun part => (hplaces part).function hf hn
  refine .thenScope ?_ (.append ?_ hbody) hplaced fun _ _ => rfl
  · cases form with
    | declaration => exact nested_nameOf hf hn rfl fun _ _ => rfl
    | expression => trivial
    | arrow => trivial
  · cases form with
    | declaration => trivial
    | expression =>
        refine nested_nameOf hf hn rfl fun other hp => ?_
        rcases hp with ⟨_, _, _, _, hfunction⟩
        cases hn.symm.trans hfunction
    | arrow => trivial

theorem Nests.declarator (h : k.Nests f) (hf : f.WellFormed) (names : NameKind) (s : Slot) :
    (k.declarator f names s).Nested f := by
  unfold Sketch.declarator
  split
  · rename_i i name initializer hn
    refine .append (h.pattern ?_) (h.node _)
    rintro d c hd rfl
    obtain rfl := Option.some.inj hd
    have hmem : some c ∈ (Node.declarator (some c) initializer).slots := List.mem_cons_self
    exact ⟨.single (hf.link_of_slot hn hmem), fun _ hp => absurd hp (not_declaresFunction hn rfl)⟩
  · trivial

theorem Nests.classLike (h : k.Nests f) (hf : f.WellFormed)
    (hplaces : ∀ part, k.Places f part) {form : ClassForm} {ident heritage : Slot}
    {members : List Slot}
    (hn : f.node? (some p) = some (.classLike form ident heritage members)) :
    (k.classLike f p form ident (.classLike form ident heritage members)).Nested f := by
  have hinside : (nameOf f .«class» ident p ++
      k.children (.classLike form ident heritage members)).Nested f := by
    refine .append (nested_nameOf hf hn rfl fun _ hp => ?_) (h.children _)
    exact absurd hp (not_declaresFunction hn rfl)
  have hplaced := fun part => (hplaces part).classLike hf hn
  cases form with
  | declaration => exact hinside
  | expression =>
      exact .scope hinside hplaced fun _ hp => absurd hp (not_declaresFunction hn rfl)

theorem Nests.ofNode (h : k.Nests f) (hf : f.WellFormed) (hplaces : ∀ part, k.Places f part)
    (hn : f.node? (some p) = some n) : (k.ofNode f p n).Nested f := by
  have hplaced := fun part => (hplaces part).ofNode hf hn
  have hkind : ∀ {kind : ScopeKind}, n.isFunction = false →
      ∀ ident, f.DeclaresFunction p ident → kind.isHoistingTarget = true :=
    fun hother _ hp => absurd hp (not_declaresFunction hn hother)
  cases n with
  | function form ident parameters code isAsync isGenerator => exact h.function hf hplaces hn
  | variableStatement kind declarators =>
      exact ⟨.concat fun s _ => h.declarator hf _ s, trivial⟩
  | classLike form ident heritage members => exact h.classLike hf hplaces hn
  | body form statements =>
      cases form with
      | program => exact h.children _
      | block => exact .scope (h.nodes statements) hplaced (hkind rfl)
      | staticBlock => exact .scope (h.nodes statements) hplaced (hkind rfl)
  | forLoop initializer condition increment statement =>
      exact .scope (h.children _) hplaced (hkind rfl)
  | iteration form target subject statement isAwait =>
      exact .scope (h.children _) hplaced (hkind rfl)
  | switch subject clauses =>
      exact .thenScope (h.node subject) (h.nodes clauses) hplaced (hkind rfl)
  | catchClause parameter block =>
      refine .scope (.append (h.pattern ?_) ?_) hplaced (hkind rfl)
      · rintro d i rfl hi
        obtain rfl := Option.some.inj hi
        exact ⟨.refl, fun _ _ => rfl⟩
      · split
        · exact h.nodes _
        · trivial
  | _ => exact h.children _

theorem Nests.ofPattern (h : k.Nests f) (hf : f.WellFormed) (hn : f.node? (some p) = some n)
    (names : NameKind) {D : Option NodeId}
    (hD : ∀ d, D = some d → f.Within p d ∧ ∀ ident, f.DeclaresFunction d ident → d = p) :
    (k.ofPattern names D p n).Nested f := by
  have hother : ∀ ident, f.DeclaresFunction p ident → ∃ form parameters code isAsync isGenerator,
      n = .function form ident parameters code isAsync isGenerator := by
    rintro ident ⟨parameters, code, isAsync, isGenerator, hfunction⟩
    exact ⟨_, _, _, _, _, Option.some.inj (hn.symm.trans hfunction)⟩
  cases n with
  | name form text =>
      cases form with
      | privateName => trivial
      | identifier =>
          have hnot : ∀ ident, ¬ f.DeclaresFunction p ident := fun ident hp => by
            rcases hother ident hp with ⟨_, _, _, _, _, heq⟩
            cases heq
          cases D with
          | none => exact ⟨.refl, fun ident hp => absurd hp (hnot ident), trivial⟩
          | some d =>
              refine ⟨(hD d rfl).1, fun ident hp => absurd ?_ (hnot ident), trivial⟩
              rwa [(hD d rfl).2 ident hp] at hp
  | list form elements =>
      cases form with
      | objectPattern => exact .concat fun s _ => h.bare names s
      | arrayPattern => exact .concat fun s _ => h.bare names s
      | _ => trivial
  | property kind key value computed =>
      exact .append (.ite (h.node key) trivial) (h.bare names value)
  | binary form target operator value =>
      cases form with
      | default =>
          refine .append (h.pattern ?_) (h.node value)
          rintro d c hd rfl
          have hmem : some c ∈ (Node.binary .default (some c) operator value).slots :=
            List.mem_cons_self
          refine ⟨.head (hf.link_of_slot hn hmem) (hD d hd).1, fun ident hp => ?_⟩
          obtain rfl := (hD d hd).2 ident hp
          rcases hother ident hp with ⟨_, _, _, _, _, heq⟩
          cases heq
      | _ => trivial
  | operand form target =>
      cases form with
      | rest => exact h.bare names target
      | _ => trivial
  | _ => trivial

theorem nests_ofDepth (hf : f.WellFormed) (depth : Nat) : (ofDepth f depth).Nests f := by
  induction depth with
  | zero => exact ⟨fun _ => trivial, fun _ => trivial⟩
  | succ depth ih =>
      constructor
      · intro s
        unfold ofDepth
        dsimp only
        split
        · exact ih.ofNode hf (fun part => places_ofDepth hf part depth) ‹_›
        · trivial
      · intro names D s hD
        unfold ofDepth
        dsimp only
        split
        · exact ih.ofPattern hf ‹_› names fun d hd => hD d _ hd rfl
        · trivial

end Sketch
end Untangle
