import Untangle.Proofs.Scope.Charted
import Untangle.Proofs.Scope.Placement

/-!
# What names mean in a tree

The declaration that a name of a tree belongs to, as it is found in the bindings, can be read off
the chart of the tree: for a used name by looking the name up in the scope around it, for any
other name at the name itself.
-/

namespace Untangle

open Forest Bindings

/-!
## Nesting
-/

namespace Outline

theorem height_concat_le {α : Type} {items : List α} {o : α → Outline} {n : Nat}
    (h : ∀ a ∈ items, (o a).height ≤ n) : (concat (items.map o)).height ≤ n := by
  induction items with
  | nil => exact Nat.zero_le n
  | cons a items ih =>
      rw [List.forall_mem_cons] at h
      exact (height_append ..).trans_le (max_le h.1 (ih h.2))

theorem height_append_le {o o' : Outline} {n : Nat} (h : o.height ≤ n) (h' : o'.height ≤ n) :
    (o ++ o').height ≤ n :=
  (height_append ..).trans_le (max_le h h')

theorem height_scope_le {o : Outline} {kind : ScopeKind} {i : NodeId} {n : Nat}
    (h : o.height ≤ n) : (scope kind i o done).height ≤ n + 1 :=
  max_le (Nat.succ_le_succ h) (Nat.zero_le _)

end Outline

namespace Sketch

open Outline

/-- Scopes are nested so deeply at most. -/
structure Low (k : Sketch) (n : Nat) : Prop where
  node : ∀ s, (k.node s).height ≤ n
  pattern : ∀ names declaration s, (k.pattern names declaration s).height ≤ n

variable {f : Forest} {k : Sketch} {n : Nat} {i : NodeId}

theorem Low.nodes (h : k.Low n) (slots : List Slot) : (k.nodes slots).height ≤ n :=
  height_concat_le fun s _ => h.node s

theorem Low.children (h : k.Low n) (m : Node Slot) : (k.children m).height ≤ n :=
  height_concat_le fun i _ => h.node (some i)

theorem height_nameOf (f : Forest) (kind : BindingKind) (s : Slot) (declaration : NodeId) :
    (nameOf f kind s declaration).height = 0 := by
  unfold nameOf
  split <;> rfl

theorem height_nameOf_le {kind : BindingKind} {s : Slot} {declaration : NodeId} :
    (nameOf f kind s declaration).height ≤ n :=
  (height_nameOf ..).trans_le (Nat.zero_le n)

theorem Low.functionBody (h : k.Low n) (parameters : List Slot) (code : Slot) :
    (k.functionBody f parameters code).height ≤ n := by
  refine height_append_le (height_concat_le fun s _ => h.pattern ..) ?_
  split
  · exact h.nodes _
  · exact h.node _
  · exact Nat.zero_le n

theorem Low.function (h : k.Low n) (form : FunctionForm) (ident : Slot) (parameters : List Slot)
    (code : Slot) : (k.function f i form ident parameters code).height ≤ n + 1 := by
  have hname : ∀ (c : Bool) kind m,
      (if c then nameOf f kind ident i else done).height ≤ m := by
    intro c kind m
    cases c
    · exact Nat.zero_le m
    · exact height_nameOf_le
  exact height_append_le (hname ..)
    (height_scope_le (height_append_le (hname ..) (h.functionBody ..)))

theorem Low.declarator (h : k.Low n) (names : NameKind) (s : Slot) :
    (k.declarator f names s).height ≤ n := by
  unfold Sketch.declarator
  split
  · exact height_append_le (h.pattern ..) (h.node _)
  · exact Nat.zero_le n

theorem Low.classLike (h : k.Low n) (form : ClassForm) (ident : Slot) (m : Node Slot) :
    (k.classLike f i form ident m).height ≤ n + 1 := by
  have hinside : (nameOf f .«class» ident i ++ k.children m).height ≤ n :=
    height_append_le height_nameOf_le (h.children m)
  cases form with
  | declaration => exact Nat.le_succ_of_le hinside
  | expression => exact height_scope_le hinside

theorem Low.handler (h : k.Low n) (parameter block : Slot) :
    (k.handler f i parameter block).height ≤ n + 1 := by
  refine height_scope_le (height_append_le (h.pattern ..) ?_)
  split
  · exact h.nodes _
  · exact Nat.zero_le n

theorem Low.ofNode (h : k.Low n) (m : Node Slot) : (k.ofNode f i m).height ≤ n + 1 := by
  unfold Sketch.ofNode
  split
  · exact h.function ..
  · refine max_le (Nat.le_succ_of_le ?_) (Nat.zero_le _)
    exact height_concat_le fun s _ => h.declarator ..
  · exact h.classLike ..
  · exact height_scope_le (h.nodes _)
  · exact height_scope_le (h.nodes _)
  · exact height_scope_le (h.children _)
  · exact height_scope_le (h.children _)
  · exact height_append_le (Nat.le_succ_of_le (h.node _)) (height_scope_le (h.nodes _))
  · exact h.handler ..
  · exact Nat.le_succ_of_le (h.children m)

theorem Low.ofPattern (h : k.Low n) (names : NameKind) (declaration : Option NodeId)
    (m : Node Slot) : (k.ofPattern names declaration i m).height ≤ n := by
  unfold Sketch.ofPattern
  split
  · exact Nat.zero_le n
  · exact height_concat_le fun s _ => h.pattern ..
  · exact height_concat_le fun s _ => h.pattern ..
  · refine height_append_le ?_ (h.pattern ..)
    split
    · exact h.node _
    · exact Nat.zero_le n
  · exact height_append_le (h.pattern ..) (h.node _)
  · exact h.pattern ..
  · exact Nat.zero_le n

theorem low_ofDepth (f : Forest) (depth : Nat) : (ofDepth f depth).Low depth := by
  induction depth with
  | zero => exact ⟨fun _ => Nat.le_refl 0, fun _ _ _ => Nat.le_refl 0⟩
  | succ depth ih =>
      constructor
      · intro s
        unfold ofDepth
        dsimp only
        split
        · exact ih.ofNode _
        · exact Nat.zero_le _
      · intro names declaration s
        unfold ofDepth
        dsimp only
        split
        · exact Nat.le_succ_of_le (ih.ofPattern ..)
        · exact Nat.zero_le _

end Sketch

/-!
## The scope around a node
-/

/-- The innermost node around a node, or the node itself, that opens a scope. -/
inductive Forest.Inside (f : Forest) (opens : NodeId → Prop) : NodeId → NodeId → Prop
  | here {i : NodeId} (h : opens i) : Inside f opens i i
  | outward {i p x : NodeId} (h : ¬ opens i) (hlink : f.Link i p) (hp : Inside f opens p x) :
      Inside f opens i x

namespace Forest.Inside

variable {f : Forest} {opens : NodeId → Prop} {i x y : NodeId}

theorem unique (hx : f.Inside opens i x) (hy : f.Inside opens i y) : x = y := by
  induction hx with
  | here h =>
      cases hy with
      | here _ => rfl
      | outward h' _ _ => exact absurd h h'
  | outward h hlink _ ih =>
      cases hy with
      | here h' => exact absurd h' h
      | outward _ hlink' hp =>
          obtain rfl := Link.unique hlink hlink'
          exact ih hp

theorem opens_end (hx : f.Inside opens i x) : opens x := by
  induction hx with
  | here h => exact h
  | outward _ _ _ ih => exact ih

end Forest.Inside

/-- A tree that is a whole program. -/
structure Forest.HasProgram (f : Forest) (root : NodeId) : Prop where
  wellFormed : f.WellFormed
  parent : f.parent (some root) = none
  node : ∃ statements, f.node? (some root) = some (.body .program statements)

/-- Every other node of a program has a parent. -/
theorem Forest.HasProgram.exists_link {f : Forest} {root i : NodeId} {n : Node Slot}
    (hf : f.HasProgram root) (hi : f.Within i root) (hn : f.node? (some i) = some n)
    (hne : ∀ statements, n ≠ .body .program statements) : ∃ p, f.Link i p := by
  rcases Relation.ReflTransGen.cases_head hi with rfl | ⟨p, hlink, _⟩
  · rcases hf.node with ⟨statements, hroot⟩
    exact absurd (Option.some.inj (hn.symm.trans hroot)) (hne statements)
  · exact ⟨p, hlink⟩

theorem Program.hasProgram_parse {source : String} {p : Program} (h : parse source = .ok p) :
    p.forest.HasProgram p.root := by
  have hgrown := grown_parse h
  exact ⟨hgrown.wellFormed, (hgrown.mem_iff.mp (List.mem_singleton_self _)).2, node?_root_parse h⟩

namespace Bindings

variable {f : Forest} {root i x : NodeId} {b b' : Bindings}

/-!
## The chart of a tree
-/

/-- The chart of everything that is declared below a root. -/
def chart (f : Forest) (root : NodeId) : Chart :=
  (outline f root).chart root root root .empty

/-- The node opens the scope of the program or one of those inside. -/
def Opens (f : Forest) (root i : NodeId) : Prop :=
  i = root ∨ i ∈ (outline f root).openers

/-- The node that declares what an identifier stands for. -/
def declarationOf (f : Forest) (root i : NodeId) : Option NodeId :=
  ((ofForest f (some root)).resolveBinding (some i)).map Binding.declaration

theorem SameTables.declares (h : b.SameTables b') (j : BindingId) :
    b'.declares j = b.declares j := by
  have horigin : ∀ c : Bindings, c.declares j =
      ((c.bindings.map Binding.origin)[j]?).map Binding.declaration := by
    intro c
    rw [Bindings.declares, entry, binding?, Option.map_map, Array.getElem?_map, Option.map_map]
    rfl
  rw [horigin, horigin, h.origins]

theorem declarationOf_eq (f : Forest) (root i : NodeId) :
    declarationOf f root i =
      ((ofForest f (some root)).resolved[i]?).bind (declarations f root).declares := by
  have hdeclares : (ofForest f (some root)).declares = (declarations f root).declares :=
    funext (sameTables_ofForest f root).declares
  rw [← hdeclares, declarationOf, resolveBinding, resolve, Option.bind_some, Option.map_bind]
  congr 1
  funext j
  rw [Bindings.declares, entry, Option.map_map]
  rfl

theorem isSome_opened_play (o : Outline) (s t : ScopeId) (b : Bindings)
    (h : x ∈ o.openers ∨ (b.opened[x]?).isSome) : ((o.play s t b).opened[x]?).isSome := by
  induction o generalizing s t b with
  | done => exact h.resolve_left nofun
  | declare hoisted kind name nameNode declaration rest ih =>
      refine ih s t _ (h.imp_right ?_)
      rw [(b.sameScopes_declare ..).opened]
      exact id
  | scope kind node inside rest ih ih' =>
      have hopened : (b.opened[x]?).isSome ∨ x = node →
          ((b.openScope kind (some node) (some s)).2.opened[x]?).isSome := by
        intro h
        rw [opened_openScope]
        split
        · rfl
        · exact h.resolve_right (Ne.symm ‹_›)
      simp only [Outline.openers, List.mem_cons, List.mem_append] at h
      rcases h with (rfl | h | h) | h
      · exact ih' s t _ (Or.inr (ih _ _ _ (Or.inr (hopened (Or.inr rfl)))))
      · exact ih' s t _ (Or.inr (ih _ _ _ (Or.inl h)))
      · exact ih' s t _ (Or.inl h)
      · exact ih' s t _ (Or.inr (ih _ _ _ (Or.inr (hopened (Or.inl h)))))
  | vars inside rest ih ih' =>
      rw [Outline.openers, List.mem_append] at h
      rcases h with (h | h) | h
      · exact ih' s t _ (Or.inr (ih _ _ b (Or.inl h)))
      · exact ih' s t _ (Or.inl h)
      · exact ih' s t _ (Or.inr (ih _ _ b (Or.inr h)))
  | cut rest ih => exact ih s t b.truncate h

theorem opened_start : (start root).opened[i]? = if root = i then some programScope else none := by
  rw [start, opened_openScope]
  split
  · rfl
  · exact Std.HashMap.getElem?_empty

/-- Scopes are opened by the nodes that the outline says, and by the root. -/
theorem isSome_opened_iff : ((declarations f root).opened[i]?).isSome ↔ Opens f root i := by
  constructor
  · intro h
    by_contra hnot
    obtain ⟨hroot, hopeners⟩ := not_or.mp hnot
    rw [declarations, opened_play _ _ _ _ hopeners, opened_start, if_neg (Ne.symm hroot)] at h
    cases h
  · intro h
    apply isSome_opened_play
    refine h.symm.imp_right ?_
    rintro rfl
    rw [opened_start, if_pos rfl]
    rfl

section Program

variable (hprogram : f.HasProgram root)

include hprogram

/-- What the outline of a program mentions lies below the root. -/
theorem placed_outline (part : Outline.Part) :
    ((outline f root).nodes part).Nodup ∧
      ∀ w ∈ (outline f root).nodes part, f.Within w root ∧ w ≠ root := by
  rcases hprogram.node with ⟨statements, hn⟩
  have hf := hprogram.wellFormed
  have hplaces := Sketch.places_ofDepth hf part Limits.treeDepth
  have hchildren := hplaces.children hf hn
  have houtline : outline f root =
      (Sketch.ofDepth f Limits.treeDepth).children (.body .program statements) :=
    Sketch.ofDepth_node hn Limits.treeDepth
  rw [houtline]
  refine ⟨hchildren.nodup, fun w hw => ?_⟩
  rcases (hchildren.within w hw).resolve_left (by rintro ⟨⟩) with ⟨r, hr, hpath⟩
  have hlink := hf.link_of_slot hn hr
  refine ⟨hpath.tail hlink, ?_⟩
  rintro rfl
  exact hf.not_within_of_link hlink hpath

theorem charted_start : (start root).Charted .empty := by
  have hopener : ∀ {s x}, (start root).opener s = some x ↔ s = programScope ∧ x = root := by
    intro s x
    rw [Bindings.opener, start, scope?_openScope]
    by_cases hs : s = programScope
    · have hzero : s = empty.scopes.size := hs
      rw [if_pos hzero]
      simp [hs, eq_comm]
    · have hzero : ¬ s = empty.scopes.size := hs
      rw [if_neg hzero]
      simp [hs, scope?, empty]
  have hparent : ∀ s, ((start root).scope? s).bind Scope.parent = none := by
    intro s
    rw [start, scope?_openScope]
    split
    · rfl
    · simp [scope?, empty]
  have hnames : ∀ key, (start root).names[key]? = none := fun key => Std.HashMap.getElem?_empty
  have hresolved : ∀ j, (start root).resolved[j]? = none := fun j => Std.HashMap.getElem?_empty
  constructor
  · intro s x
    rw [hopener, opened_start]
    constructor
    · rintro ⟨rfl, rfl⟩
      exact if_pos rfl
    · intro h
      split at h
      · exact ⟨(Option.some.inj h).symm, ‹root = x›.symm⟩
      · cases h
  · intro s x _
    rw [hparent]
    rfl
  · intro s p hp
    rw [hparent] at hp
    cases hp
  · intro s x _ name
    rw [hnames]
    rfl
  · intro j
    rw [hresolved]
    rfl
  · intro s name j hj
    rw [hnames] at hj
    cases hj
  · intro j k hk
    rw [hresolved] at hk
    cases hk
  · exact fun _ => ⟨rfl, fun _ => rfl⟩

theorem charted_declarations :
    (declarations f root).Charted (chart f root) ∧
      (declarations f root).Shallow (Limits.treeDepth + 1) := by
  have hscope : (start root).scope? programScope = some ⟨.program, some root, none⟩ :=
    (scope?_openScope ..).trans (if_pos rfl)
  have hplace : (start root).Place programScope root root 0 :=
    ⟨by rw [Bindings.opener, hscope]; rfl, .program hscope rfl, programScope, .here hscope rfl,
      by rw [Bindings.opener, hscope]; rfl⟩
  have hshallow : (start root).Shallow (Limits.treeDepth + 1) := by
    intro s x hs
    have hs' : s = programScope := by
      by_contra hne
      have hzero : ¬ s = empty.scopes.size := hne
      rw [Bindings.opener, start, scope?_openScope, if_neg hzero] at hs
      simp [scope?, empty] at hs
    exact ⟨0, Nat.zero_le _, hs' ▸ hplace.deep⟩
  have hopeners := placed_outline hprogram .openers
  rw [Outline.nodes_openers] at hopeners
  refine charted_play _ (charted_start hprogram) hshallow hplace hplace.opener ?_ (by decide)
    hopeners.1 fun w hw => ?_
  · rw [Nat.zero_add]
    exact (Sketch.low_ofDepth f _).node (some root)
  · rw [opened_start, if_neg (Ne.symm (hopeners.2 w hw).2)]

/-- The scope around a scope is opened by a node, too. -/
theorem opens_of_around {y : NodeId} (h : (chart f root).around x = some y) :
    Opens f root y := by
  have hcharted := (charted_declarations hprogram).1
  cases hopened : (declarations f root).opened[x]? with
  | none =>
      rw [(hcharted.blank hopened).1] at h
      cases h
  | some s =>
      rw [hcharted.around (hcharted.opened.mpr hopened)] at h
      rcases Option.bind_eq_some_iff.mp h with ⟨p, _, hp⟩
      apply isSome_opened_iff.mp
      rw [hcharted.opened.mp hp]
      rfl

/-- A node of a kind that opens no scope opens none. -/
theorem not_opens_of_kind {n : Node Slot} (hn : f.node? (some i) = some n)
    (hkind : n.opensScope = false) (hi : i ≠ root) : ¬ Opens f root i := by
  intro hopens
  have hb := (walked_track hprogram.wellFormed hprogram.parent).settled
  have hsome := isSome_opened_iff.mpr hopens
  rw [← (sameTables_ofForest f root).opened] at hsome
  rcases Option.isSome_iff_exists.mp hsome with ⟨s, hs⟩
  rcases hb.found hs with ⟨heq, _⟩ | hopened
  · exact hi heq
  · exact not_opener_of_kind hn hkind (hb.attached hopened).1

theorem not_opens_of_name {text : String}
    (hn : f.node? (some i) = some (.name .identifier text)) : ¬ Opens f root i := by
  refine not_opens_of_kind hprogram hn rfl ?_
  rintro rfl
  rcases hprogram.node with ⟨statements, hroot⟩
  cases hroot.symm.trans hn

/-!
## What a name means
-/

theorem opener_of_opened {s : ScopeId} (h : (declarations f root).opened[i]? = some s) :
    (declarations f root).opener s = some i :=
  (charted_declarations hprogram).1.opened.mpr h

/-- The scope that climbing arrives in is the innermost one around the node. -/
theorem inside_of_around {s : ScopeId} (h : Around f root (ofForest f (some root)) i s) :
    ∃ x, (declarations f root).opener s = some x ∧
      (¬ Opens f root i → f.Inside (Opens f root) i x) := by
  have hopened := (sameTables_ofForest f root).opened
  induction h with
  | root =>
      have hroot : (declarations f root).opened[root]? = some programScope := by
        have hopeners := placed_outline hprogram .openers
        rw [Outline.nodes_openers] at hopeners
        rw [declarations, opened_play _ _ _ _ fun h => (hopeners.2 root h).2 rfl, opened_start,
          if_pos rfl]
      exact ⟨root, opener_of_opened hprogram hroot, fun h => absurd (Or.inl rfl) h⟩
  | @inside i p t hlink hp =>
      rw [hopened] at hp
      have hopens : Opens f root p := isSome_opened_iff.mp (by rw [hp]; rfl)
      exact ⟨p, opener_of_opened hprogram hp, fun h => .outward h hlink (.here hopens)⟩
  | @outside i p t hlink hp _ ih =>
      rw [hopened] at hp
      have hopens : ¬ Opens f root p := fun h => by
        have hsome := isSome_opened_iff.mpr h
        rw [hp] at hsome
        cases hsome
      rcases ih with ⟨x, hx, hinside⟩
      exact ⟨x, hx, fun h => .outward h hlink (hinside hopens)⟩

variable {p : Purpose} {kind : ReferenceKind} {name : String}

/-- The walk never stands where its limit is used up. -/
theorem oriented_of_reached (hwhole : (ofForest f (some root)).truncated = false)
    (h : Reached f root (p, i)) :
    ∃ left o, Oriented f root (ofForest f (some root)) (Limits.treeDepth + 1) (left + 1) i o := by
  have hf := hprogram.wellFormed
  have hb := (walked_track hf hprogram.parent).settled
  have hcut := (truncated_ofForest.mp hwhole).2
  have hopened := (sameTables_ofForest f root).opened
  have hsub : ∀ {y : Position}, Reached f root y → ∃ left o,
      f.itinerary ((declarations f root).opened[·]?) (left + 1) y.1 o (some y.2) ⊆
          route f root ∧
        Oriented f root (ofForest f (some root)) (Limits.treeDepth + 1) (left + 1) y.2 o := by
    intro y hy
    induction hy with
    | refl =>
        refine ⟨Limits.treeDepth, ⟨programScope, false⟩, List.Subset.refl _, le_rfl, .root, ?_⟩
        intro steps _
        rw [hprogram.parent]
        cases steps <;> rfl
    | tail _ hnext ih =>
        rcases ih with ⟨left, o, hsub, horiented⟩
        have hpos : ∀ {q o' s}, f.itinerary ((declarations f root).opened[·]?) left q o' s ⊆
            route f root → ∃ n, left = n + 1 := by
          intro q o' s hsub'
          cases left with
          | zero => exact absurd (hsub' (List.mem_singleton_self _)) hcut
          | succ n => exact ⟨n, rfl⟩
        cases hnext with
        | @again j n q q' hn hq =>
            rw [itinerary_again hn hq] at hsub
            rcases hpos hsub with ⟨n, rfl⟩
            refine ⟨n, _, hsub, ?_⟩
            rw [← hopened]
            exact horiented.again hb hprogram.parent hn hq
        | @child j c n q e hn hstop he hc =>
            rw [itinerary_here hn hstop, List.append_subset] at hsub
            have hchild := fun stop hmem =>
              hsub.2 (List.mem_flatMap.mpr ⟨e, he, hmem⟩ : stop ∈ _)
            rcases hpos hchild with ⟨n, rfl⟩
            rw [hc] at hchild
            refine ⟨n, _, hchild, ?_⟩
            rw [← hopened]
            exact horiented.child hf hb hprogram.parent hn hstop he hc
  rcases hsub h with ⟨left, o, _, horiented⟩
  exact ⟨left, o, horiented⟩

/-- Looking names up at a node that the walk comes to gives what they mean in the innermost scope
around the node. -/
theorem lookup_means (hwhole : (ofForest f (some root)).truncated = false)
    (h : Reached f root (p, i)) (hi : ¬ Opens f root i) :
    ∃ x, f.Inside (Opens f root) i x ∧ ∀ name, (chart f root).Means name x
      (((ofForest f (some root)).lookup
        ((ofForest f (some root)).scopeOf f (some i)) name).bind (declarations f root).declares) := by
  have hsame := sameTables_ofForest f root
  rcases oriented_of_reached hprogram hwhole h with ⟨left, o, horiented⟩
  rcases inside_of_around hprogram horiented.around with ⟨x, hx, hinside⟩
  have hnone : (ofForest f (some root)).opened[i]? = none := by
    rw [hsame.opened]
    cases hopened : (declarations f root).opened[i]? with
    | none => rfl
    | some s => exact absurd (isSome_opened_iff.mp (by rw [hopened]; rfl)) hi
  have hscope : (ofForest f (some root)).scopeOf f (some i) = o.scope := by
    have hsteps : Limits.scopeSteps = (Limits.scopeSteps - 1) + 1 := rfl
    rw [Bindings.scopeOf, hsteps, scopeOfFrom_succ, hnone, Option.getD_none]
    have hdepth : Limits.treeDepth + 1 ≤ Limits.scopeSteps := by decide
    exact horiented.climbs _ (by omega)
  refine ⟨x, hinside hi, fun name => ?_⟩
  rcases charted_declarations hprogram with ⟨hcharted, hshallow⟩
  rcases hshallow hx with ⟨n, hn, hdeep⟩
  rw [hscope, hsame.lookup]
  exact hcharted.means hx hdeep (Nat.lt_of_le_of_lt hn (by decide)) name

/-- A name that the walk uses stands for what it means in the innermost scope around it. -/
theorem declarationOf_of_used (hwhole : (ofForest f (some root)).truncated = false)
    (h : Used f root kind name i) :
    ∃ x, f.Inside (Opens f root) i x ∧
      (chart f root).Means name x (declarationOf f root i) := by
  rcases h.reached with ⟨p, hreached, _⟩
  have hi := not_opens_of_name hprogram h.node
  rcases lookup_means hprogram hwhole hreached hi with ⟨x, hx, hmeans⟩
  refine ⟨x, hx, ?_⟩
  rcases (mem_route_iff hwhole).mpr h with ⟨scope, inWith, hmem⟩
  have hlookup := hmeans name
  rw [← scope_of_mem_route hprogram.wellFormed hprogram.parent hmem,
    (sameTables_ofForest f root).lookup,
    ← resolve_of_mem_route hprogram.wellFormed hprogram.parent hwhole hmem] at hlookup
  rw [declarationOf_eq]
  exact hlookup

/-- Any other name stands for what it was declared as. -/
theorem declarationOf_of_not_used (hwhole : (ofForest f (some root)).truncated = false)
    (h : ∀ kind name, ¬ Used f root kind name i) :
    declarationOf f root i = (chart f root).named i := by
  rw [declarationOf_eq, resolved_of_not_used hwhole h, (charted_declarations hprogram).1.named]

end Program

end Bindings
end Untangle
