import Untangle.Proofs.Grammar.Patterns

/-!
# Literals that become patterns

In front of an operator that assigns, a literal turns into a pattern. The change stays inside the
literal, and the plain tree that it was before is a target afterwards.
-/

namespace Untangle

open Forest Parse Role

/-!
## Changes inside of trees
-/

namespace Forest

variable {f g k : Forest} {i j : NodeId} {n m : Node Slot} {role : Role}
  {held children : List Held}

/-- The trees at the given nodes, and nothing else, turn into ones of the given roles. -/
structure Becomes (f g : Forest) (held : List Held) : Prop where
  alike : f.Alike g
  same : ∀ {j}, (∀ tree ∈ held, ¬ f.Within j tree.1) → g.node? (some j) = f.node? (some j)
  roles : ∀ tree ∈ held, g.HasRole tree.2 tree.1

namespace Becomes

theorem refl (h : ∀ tree ∈ held, f.HasRole tree.2 tree.1) : f.Becomes f held :=
  ⟨.refl f, fun _ => rfl, h⟩

theorem fits {role' : Role} (h : f.Becomes g [(i, role)]) (hfits : role.Fits role') :
    f.Becomes g [(i, role')] := by
  refine ⟨h.alike, fun hj => h.same fun tree htree => ?_, fun tree htree => ?_⟩
  · obtain rfl := List.mem_singleton.mp htree
    exact hj (i, role') (List.mem_singleton_self _)
  · obtain rfl := List.mem_singleton.mp htree
    exact (h.roles (i, role) (List.mem_singleton_self _)).fits hfits

theorem single (h : f.HasRole role i) : f.Becomes f [(i, role)] :=
  refl fun _ htree => List.mem_singleton.mp htree ▸ h

/-- A tree beside the ones that change keeps its role. -/
theorem hasRole (h : f.Becomes g held) (hf : f.WellFormed) (hj : f.HasRole role j)
    (hapart : ∀ tree ∈ held, ∀ a, f.Within a j → ¬ f.Within a tree.1) : g.HasRole role j :=
  hj.congr hf fun a ha => h.same fun tree htree => hapart tree htree a ha

/-- One tree changes, then others beside it. -/
theorem cons (hf : f.WellFormed) (h : f.Becomes g [(i, role)]) (h' : g.Becomes k held)
    (hapart : ∀ tree ∈ held, ∀ a, f.Within a i → ¬ f.Within a tree.1) :
    f.Becomes k ((i, role) :: held) := by
  refine ⟨h.alike.trans h'.alike, fun {j} hj => ?_, fun tree htree => ?_⟩
  · rw [List.forall_mem_cons] at hj
    rw [h'.same fun tree htree => fun hw => hj.2 tree htree (h.alike.within.mp hw)]
    exact h.same fun tree htree => List.mem_singleton.mp htree ▸ hj.1
  · rcases List.mem_cons.mp htree with rfl | htree
    · refine h'.hasRole (h.alike.wellFormed hf) (h.roles _ List.mem_cons_self) ?_
      intro tree htree a ha hw
      exact hapart tree htree a (h.alike.within.mp ha) (h.alike.within.mp hw)
    · exact h'.roles tree htree

/-- What changes below a node changes inside its tree. -/
theorem around (h : f.Becomes g held) (hbelow : ∀ tree ∈ held, f.Link tree.1 i)
    (hrole : g.HasRole role i) : f.Becomes g [(i, role)] := by
  refine ⟨h.alike, fun {j} hj => ?_, fun tree htree => List.mem_singleton.mp htree ▸ hrole⟩
  refine h.same fun tree htree hw => ?_
  exact hj _ (List.mem_singleton_self _) (hw.tail (hbelow tree htree))

/-- After its children, the node of a tree changes. -/
theorem setNode (h : f.Becomes g held) (hf : f.WellFormed) (hn : f.node? (some i) = some n)
    (hbelow : ∀ tree ∈ held, f.Link tree.1 i) (hshape : shape m = shape n)
    (hheld : role.held? m = some children)
    (hchildren : ∀ child ∈ children, g.HasRole child.2 child.1) :
    f.Becomes (g.setNode i m) [(i, role)] := by
  refine ⟨h.alike.setNode ⟨n, hn, hshape⟩, fun {j} hj => ?_, fun tree htree => ?_⟩
  · have hout := hj _ (List.mem_singleton_self _)
    have hne : j ≠ i := fun heq => hout (heq ▸ .refl)
    rw [node?_setNode_of_ne hne]
    exact h.same fun tree htree hw => hout (hw.tail (hbelow tree htree))
  · obtain rfl := List.mem_singleton.mp htree
    have hi := h.alike.lt_size (lt_size_of_node? hn)
    refine .node (node?_setNode_self hi) hheld fun child hchild => ?_
    refine (hchildren child hchild).congr (h.alike.wellFormed hf) fun a ha => ?_
    -- The node is not found below its children.
    have hslots : m.slots = n.slots := congrArg (·.1) hshape
    have hmem : child.1 ∈ childrenOf n := by
      rw [childrenOf, ← hslots, ← childrenOf, ← map_fst_of_held? hheld]
      exact List.mem_map_of_mem hchild
    have hlink : f.Link child.1 i := hf.linked.mpr (children_of_node? hn ▸ hmem)
    refine node?_setNode_of_ne fun heq => ?_
    exact hf.not_within_of_link hlink (heq ▸ h.alike.within.mp ha)

end Becomes

/-- Trees with other roots stand beside the one that changes. -/
theorem GrownAs.becomes {role' : Role} (h : f.GrownAs ((i, role) :: held))
    (hg : f.Becomes g [(i, role')]) : g.GrownAs ((i, role') :: held) := by
  refine ⟨h.grown.of_alike hg.alike, List.forall_mem_cons.mpr ⟨?_, fun root hroot => ?_⟩⟩
  · exact hg.roles _ (List.mem_singleton_self _)
  · refine hg.hasRole h.grown.wellFormed (h.roles root (List.mem_cons_of_mem _ hroot)) ?_
    intro tree htree a ha hw
    obtain rfl := List.mem_singleton.mp htree
    have hmem : root.1 ∈ held.map Prod.fst := List.mem_map_of_mem hroot
    have hfree := (h.grown.mem_iff.mp (List.mem_cons_of_mem _ hmem)).2
    obtain rfl := roots_disjoint hfree (h.grown.mem_iff.mp List.mem_cons_self).2 ha hw
    exact (List.nodup_cons.mp h.grown.nodup).1 hmem

/-- The key of a property is a name, or plain if it is computed. -/
theorem hasRole_property_iff {kind : PropertyKind} {key : Slot} {value : NodeId} {computed : Bool}
    {valueRole : Role} (hn : f.node? (some i) = some (.property kind key (some value) computed))
    (hroles : role.roles (.property kind key (some value) computed) =
      some [.ofName computed key, valueRole]) :
    f.HasRole role i ↔
      (∀ c ∈ key, f.HasRole (.ofName computed key) c) ∧ f.HasRole valueRole value := by
  have hheld : role.held? (.property kind key (some value) computed) =
      some (key.toList.map (·, .ofName computed key) ++ [(value, valueRole)]) := by
    rw [held?, hroles]
    cases key <;> rfl
  constructor
  · intro h
    cases h with
    | node hn' hheld' hchildren =>
        obtain rfl := Option.some.inj (hn.symm.trans hn')
        obtain rfl := Option.some.inj (hheld.symm.trans hheld')
        refine ⟨fun c hc => hchildren (c, .ofName computed key) ?_,
          hchildren (value, valueRole) (by simp)⟩
        exact List.mem_append_left _ (List.mem_map_of_mem (Option.mem_toList.mpr hc))
  · rintro ⟨hkey, hvalue⟩
    refine .node hn hheld fun child hchild => ?_
    rcases List.mem_append.mp hchild with hchild | hchild
    · rcases List.mem_map.mp hchild with ⟨c, hc, rfl⟩
      exact hkey c (Option.mem_toList.mp hc)
    · exact List.mem_singleton.mp hchild ▸ hvalue

/-- Whatever stands first, only its own role is told anew. -/
theorem GrownAs.recastFirst {role' : Role} (h : f.GrownAs ((i, role) :: held))
    (hrole : f.HasRole role' i) : f.GrownAs ((i, role') :: held) :=
  @GrownAs.recast f role role' i [] held h hrole

theorem HasRole.head_of_declaration {kind : VariableKind} {declarators : List Slot}
    (h : f.HasRole .plain i) (hn : f.node? (some i) = some (.variableStatement kind declarators)) :
    f.HasRole .head i := by
  cases h with
  | node hn' hheld hchildren =>
      obtain rfl := Option.some.inj (hn.symm.trans hn')
      exact .node hn hheld hchildren

theorem HasRole.leaf_of_isTarget (h : f.HasRole .plain i)
    (hn : f.node? (some i) = some n) (htarget : n.isTarget = true) : f.HasRole (.leaf false) i := by
  cases h with
  | node hn' hheld hchildren =>
      obtain rfl := Option.some.inj (hn.symm.trans hn')
      have hroles : (Role.leaf false).roles n = Role.plain.roles n := if_pos htarget
      refine .node hn ?_ hchildren
      rwa [held?, hroles]

theorem HasRole.leaf_of_satisfies (h : f.HasRole .plain i)
    (htarget : f.satisfies (some i) Node.isTarget = true) : f.HasRole (.leaf false) i := by
  cases h with
  | node hn hheld hchildren =>
      rw [satisfies, hn] at htarget
      exact (HasRole.node hn hheld hchildren).leaf_of_isTarget hn htarget

end Forest

/-!
## Actions from a known forest
-/

namespace Parse

variable {α β : Type}

/-- What the action leaves when it starts from the forest. -/
def From (f : Forest) (act : Parse α) (post : α → Forest → Prop) : Prop :=
  ∀ ⦃ctx s a s'⦄, s.forest = f → act ctx s = .ok (a, s') → post a s'.forest

namespace From

variable {f : Forest} {act : Parse α} {k : α → Parse β} {mid : α → Forest → Prop}
  {post : β → Forest → Prop}

theorem pure {b : β} (h : post b f) : From f (pure b) post := by
  rintro ctx s a s' rfl hrun
  rcases run_pure.mp hrun with ⟨rfl, rfl⟩
  exact h

theorem fail (cause : SyntaxError.Cause) : From f (fail cause : Parse β) post := by
  intro ctx s a s' _ hrun
  cases hrun

theorem failAt (offset : Nat) (cause : SyntaxError.Cause) :
    From f (failAt offset cause : Parse β) post :=
  fun _ _ _ _ _ hrun => absurd hrun run_throw

theorem bind (hact : From f act mid) (hk : ∀ a g, mid a g → From g (k a) post) :
    From f (act >>= k) post := by
  intro ctx s b s'' hs hrun
  rcases run_bind.mp hrun with ⟨a, s', ha, hb⟩
  exact hk a s'.forest (hact hs ha) rfl hb

theorem quiet (hact : Quiet act) (hk : ∀ a, From f (k a) post) : From f (act >>= k) post := by
  intro ctx s b s'' hs hrun
  rcases run_bind.mp hrun with ⟨a, s', ha, hb⟩
  exact hk a ((hact ha).trans hs) hb

theorem ite {c : Prop} [Decidable c] {act other : Parse β} (h : c → From f act post)
    (hother : ¬ c → From f other post) : From f (if c then act else other) post := by
  split
  · exact h ‹c›
  · exact hother ‹¬ c›

theorem atNode {i : NodeId} {k : Option (Node Slot) → Parse β}
    (hk : From f (k (f.node? (some i))) post) : From f (node? i >>= k) post := by
  rintro ctx s b s' rfl hrun
  exact hk rfl hrun

theorem get {k : ParseState → Parse β} (hk : ∀ s : ParseState, s.forest = f → From f (k s) post) :
    From f (get >>= k) post := by
  intro ctx s b s' hs hrun
  exact hk s hs hs hrun

theorem atTarget {i : NodeId} {k : Bool → Parse β}
    (hk : From f (k (f.satisfies (some i) Node.isTarget)) post) :
    From f (Pattern.isTargetAt i >>= k) post := by
  rintro ctx s b s' rfl hrun
  exact hk rfl hrun

theorem mono {post' : β → Forest → Prop} {act : Parse β} (h : From f act post)
    (hpost : ∀ b g, post b g → post' b g) : From f act post' :=
  fun _ _ _ _ hs hrun => hpost _ _ (h hs hrun)

theorem setNode {i : NodeId} {n : Node Slot} {post : Unit → Forest → Prop}
    (h : post () (f.setNode i n)) : From f (setNode i n) post := by
  rintro ctx s a s' rfl hrun
  cases hrun
  exact h

end From

/-- An action that does its work whatever trees stand beside the ones it takes. -/
theorem Builds.ofFrom {act : Parse α} {used : List Held} {made : α → List Held → Prop}
    (h : ∀ f rest, f.GrownAs (used ++ rest) →
      From f act fun a g => ∃ roots, made a roots ∧ g.GrownAs (roots ++ rest)) :
    Builds used act made :=
  fun _ _ s _ _ hgrown hrun => h s.forest _ hgrown rfl hrun

end Parse

/-!
## Conversion
-/

namespace Pattern

variable {f : Forest} {convert : NodeId → Parse Unit} {inObject isLast : Bool} {element : NodeId}

/-- The role of the entries of a literal. -/
def givenRole (inObject : Bool) : Role :=
  if inObject then .literalEntry else .plain

/-- The role of the entries of the pattern that it turns into. -/
def madeRole (inObject isLast : Bool) : Role :=
  if inObject then .objectEntry false isLast else .arrayEntry false isLast

/-- Plain trees turn into targets. -/
def Converts (convert : NodeId → Parse Unit) : Prop :=
  ∀ ⦃f i⦄, f.WellFormed → f.HasRole .plain i →
    From f (convert i) fun _ g => f.Becomes g [(i, .target false)]

theorem from_invalidAt {α : Type} (i : NodeId) (post : α → Forest → Prop) :
    From f (invalidAt i) post :=
  .quiet (quiet_startOf i) fun _ => .failAt _ _

/-- What is converted for an element is itself, or the value that it has as a property. -/
def Converted (f : Forest) (element value : NodeId) : Prop :=
  (∃ kind key computed,
      f.node? (some element) = some (.property kind key (some value) computed)) ∨
    value = element ∧ ∀ kind key value computed,
      f.node? (some element) ≠ some (.property kind key value computed)

/-- An assignment becomes a target with a default. -/
theorem from_convertElement (hconvert : Converts convert) (hf : f.WellFormed) {value : NodeId}
    (hvalue : Converted f element value) (hplain : f.HasRole .plain value) :
    From f (convertElement convert element) fun _ g => f.Becomes g [(value, .element false)] := by
  refine .atNode ?_
  extract_lets value'
  have hsame : value' = value := by
    dsimp only [value']
    rcases hvalue with ⟨kind, key, computed, hn⟩ | ⟨rfl, hne⟩
    · rw [hn]
    · split
      · exact absurd ‹_› (hne _ _ _ _)
      · rfl
  clear_value value'
  subst hsame
  refine .atNode ?_
  split
  · rename_i left right hn
    refine .setNode ?_
    cases hplain with
    | node hn' hheld hchildren =>
        obtain rfl := Option.some.inj (hn.symm.trans hn')
        exact (@Becomes.refl f [] nofun).setNode hf hn nofun rfl hheld hchildren
  · exact (hconvert hf hplain).mono fun _ _ h => h.fits .target_element

/-- The argument of a spread becomes a target, which has to be a leaf in an object. -/
theorem from_convertRest (hconvert : Converts convert) (hf : f.WellFormed) {target : NodeId}
    (hn : f.node? (some element) = some (.operand .spread (some target)))
    (hplain : f.HasRole .plain target) :
    From f (convertRest convert inObject isLast element target)
      fun _ g => f.Becomes g [(element, madeRole inObject isLast)] := by
  have hlink : f.Link target element :=
    hf.linked.mpr (children_of_node? hn ▸ List.mem_singleton_self _)
  refine .ite (fun _ => .quiet (quiet_startOf _) fun _ => .failAt _ _) fun hlast => ?_
  obtain rfl : isLast = true := by simpa using hlast
  extract_lets put
  have hput : ∀ g, f.Becomes g [(target, if inObject then .leaf false else .target false)] →
      From g (put ()) fun _ k => f.Becomes k [(element, madeRole inObject true)] := by
    intro g hg
    refine .setNode (hg.setNode hf hn ?_ rfl ?_ hg.roles)
    · exact fun tree htree => List.mem_singleton.mp htree ▸ hlink
    · cases inObject <;> rfl
  cases inObject with
  | false => exact .bind (hconvert hf hplain) fun _ g hg => hput g hg
  | true =>
      refine .atTarget (.ite (fun htarget => ?_) fun _ => ?_)
      · exact hput f (.single (hplain.leaf_of_satisfies htarget))
      · exact .bind (from_invalidAt target fun _ _ => False) fun _ _ h => h.elim

/-!
### Entries
-/

/-- A property of a literal keeps its key, and its value becomes an element. -/
theorem from_convertProperty (hconvert : Converts convert) (hf : f.WellFormed) {key : Slot}
    {value : NodeId} {computed : Bool}
    (hn : f.node? (some element) = some (.property .init key (some value) computed))
    (hentry : f.HasRole .literalEntry element) :
    From f (convertElement convert element)
      fun _ g => f.Becomes g [(element, .objectEntry false isLast)] := by
  obtain ⟨hkey, hvalue⟩ := (hasRole_property_iff hn rfl).mp hentry
  have hlink : ∀ c, some c ∈ [key, some value] → f.Link c element := fun c hc =>
    hf.linked.mpr (children_of_node? hn ▸ mem_childrenOf.mpr hc)
  have hlinked := hlink value (by simp)
  refine (from_convertElement hconvert hf (.inl ⟨_, _, _, hn⟩) hvalue).mono fun _ g hg => ?_
  have hn' : g.node? (some element) = some (.property .init key (some value) computed) := by
    rw [hg.same fun tree htree => List.mem_singleton.mp htree ▸ hf.not_within_of_link hlinked, hn]
  refine hg.around (fun tree htree => List.mem_singleton.mp htree ▸ hlinked) ?_
  refine (hasRole_property_iff hn' rfl).mpr ⟨fun c hc => ?_, hg.roles _ (List.mem_singleton_self _)⟩
  -- Key and value are different children of the property.
  refine hg.hasRole hf (hkey c hc) fun tree htree a ha hw => ?_
  obtain rfl := List.mem_singleton.mp htree
  obtain rfl := Option.mem_def.mp hc
  have hnodup := hf.nodup element
  rw [children_of_node? hn] at hnodup
  have hne : c ≠ value := by simpa [childrenOf, Node.slots] using hnodup
  exact hne (hf.siblings_disjoint (hlink c (by simp)) hlinked ha hw)

/-- An entry of a literal becomes one of a pattern. -/
theorem from_convertMember (hconvert : Converts convert) (hf : f.WellFormed)
    (hentry : f.HasRole (givenRole inObject) element) :
    From f (convertMember convert inObject isLast element)
      fun _ g => f.Becomes g [(element, madeRole inObject isLast)] := by
  cases hentry with
  | @node _ _ n held hn hheld hchildren =>
      have hspread : ∀ target, n = .operand .spread (some target) → f.HasRole .plain target := by
        rintro target rfl
        cases inObject
        all_goals
          obtain rfl := Option.some.inj hheld
          exact hchildren (target, .plain) (List.mem_singleton_self _)
      refine .atNode ?_
      rw [hn]
      split
      · rename_i target heq
        obtain rfl := Option.some.inj heq
        exact from_convertRest hconvert hf hn (hspread target rfl)
      · rename_i key value computed heq
        obtain rfl := Option.some.inj heq
        cases value with
        | none => cases hheld
        | some value => exact from_convertProperty hconvert hf hn (.node hn hheld hchildren)
      · rename_i key value computed heq
        obtain rfl := Option.some.inj heq
        refine .pure (.single ?_)
        cases value with
        | none => cases key <;> cases hheld
        | some value =>
            have hentry : f.HasRole .literalEntry element := .node hn hheld hchildren
            obtain ⟨hkey, hvalue⟩ := (hasRole_property_iff hn rfl).mp hentry
            exact (hasRole_property_iff hn rfl).mpr ⟨hkey, hvalue.fits .shorthandValue_element⟩
      · rename_i heq
        obtain rfl := Option.some.inj heq
        exact .pure (.single (.node hn rfl nofun))
      · rename_i heq
        obtain rfl := Option.some.inj heq
        have hplain : f.HasRole .plain element := .node hn hheld hchildren
        refine (from_convertElement hconvert hf (.inr ⟨rfl, ?_⟩) hplain).mono ?_
        · intro kind key value computed hproperty
          obtain rfl := Option.some.inj (hproperty.symm.trans hn)
          cases hheld
        · exact fun _ g hg => hg.fits .element_arrayEntry
      · exact from_invalidAt _ _

/-- Entry by entry, from the first one to the last. -/
theorem from_convertMembers (hconvert : Converts convert) (hf : f.WellFormed)
    {items : List NodeId} (hentries : ∀ i ∈ items, f.HasRole (givenRole inObject) i)
    (hapart : items.Pairwise fun i j => ∀ a, f.Within a i → ¬ f.Within a j) :
    From f (convertMembers convert inObject (items.map some))
      fun _ g => f.Becomes g (heldLast (madeRole inObject) items) := by
  induction items generalizing f with
  | nil => exact .pure (.refl nofun)
  | cons i items ih =>
      rw [List.forall_mem_cons] at hentries
      rw [List.pairwise_cons] at hapart
      refine .bind (from_convertMember hconvert hf hentries.1) fun _ g hg => ?_
      have hrest : ∀ j ∈ items, g.HasRole (givenRole inObject) j := by
        refine fun j hj => hg.hasRole hf (hentries.2 j hj) fun tree htree a ha hw => ?_
        obtain rfl := List.mem_singleton.mp htree
        exact hapart.1 j hj a hw ha
      have hapart' : items.Pairwise fun i j => ∀ a, g.Within a i → ¬ g.Within a j :=
        hapart.2.imp fun h a ha hw => h a (hg.alike.within.mp ha) (hg.alike.within.mp hw)
      refine (ih (hg.alike.wellFormed hf) hrest hapart').mono fun _ k hk => ?_
      rw [List.isEmpty_map] at hg
      refine hg.cons hf hk fun tree htree => hapart.1 tree.1 ?_
      rw [← map_fst_heldLast items]
      exact List.mem_map_of_mem htree

/-!
### Literals
-/

def literalForm (inObject : Bool) : ListForm :=
  if inObject then .objectLiteral else .arrayLiteral

def patternForm (inObject : Bool) : ListForm :=
  if inObject then .objectPattern else .arrayPattern

theorem exists_items {entries : List Slot} (h : none ∉ entries) :
    ∃ items : List NodeId, entries = items.map some := by
  induction entries with
  | nil => exact ⟨[], rfl⟩
  | cons entry entries ih =>
      rw [List.mem_cons, not_or] at h
      rcases ih h.2 with ⟨items, rfl⟩
      cases entry with
      | none => exact absurd rfl h.1
      | some i => exact ⟨i :: items, rfl⟩

/-- After its entries, the literal itself becomes a pattern. -/
theorem from_convertLiteral (inObject : Bool) (hconvert : Converts convert) (hf : f.WellFormed)
    {i : NodeId} {entries : List Slot}
    (hn : f.node? (some i) = some (.list (literalForm inObject) entries))
    (hplain : f.HasRole .plain i) :
    From f (do
      convertMembers convert inObject entries
      setNode i (.list (patternForm inObject) entries))
      fun _ g => f.Becomes g [(i, .target false)] := by
  rcases exists_items (hf.full hn entries rfl) with ⟨items, rfl⟩
  have hlink : ∀ c ∈ items, f.Link c i := fun c hc =>
    hf.linked.mpr (children_of_node? hn ▸ mem_childrenOf.mpr (List.mem_map_of_mem hc))
  have hentries : ∀ c ∈ items, f.HasRole (givenRole inObject) c := by
    have hheld : Role.plain.held? (.list (literalForm inObject) (items.map some)) =
        some (items.map (·, givenRole inObject)) := by
      cases inObject <;> exact gather_const items
    cases hplain with
    | node hn' hheld' hchildren =>
        obtain rfl := Option.some.inj (hn.symm.trans hn')
        obtain rfl := Option.some.inj (hheld.symm.trans hheld')
        exact fun c hc => hchildren (c, givenRole inObject) (List.mem_map_of_mem hc)
  have hapart : items.Pairwise fun c d => ∀ a, f.Within a c → ¬ f.Within a d := by
    have hnodup := hf.nodup i
    rw [children_of_node? hn] at hnodup
    have hitems : items.Nodup := by simpa [childrenOf, Node.slots, List.filterMap_map] using hnodup
    exact hitems.imp_of_mem fun hc hd hne a ha hw =>
      hne (hf.siblings_disjoint (hlink _ hc) (hlink _ hd) ha hw)
  refine .bind (from_convertMembers hconvert hf hentries hapart) fun _ g hg => ?_
  refine .setNode (hg.setNode hf hn (fun tree htree => hlink _ ?_) ?_ ?_ hg.roles)
  · rw [← map_fst_heldLast items]
    exact List.mem_map_of_mem htree
  · cases inObject <;> rfl
  · cases inObject <;> exact gather_heldLast items

/-- All literals inside a pattern are patterns in turn. -/
theorem converts_convertWith (depth : Nat) : Converts (convertWith depth) := by
  induction depth with
  | zero => exact fun _ _ _ _ => .fail _
  | succ depth ih =>
      intro f i hf hplain
      refine .atNode ?_
      split
      · exact from_convertLiteral true ih hf ‹_› hplain
      · exact from_convertLiteral false ih hf ‹_› hplain
      · rename_i n _ _ hn
        refine .ite (fun htarget => ?_) fun _ => from_invalidAt _ _
        exact .pure (.single ((hplain.leaf_of_isTarget hn htarget).fits .leaf_target))
      · exact from_invalidAt _ _

theorem converts_convert : Converts Pattern.convert := fun _ _ hf hplain =>
  .quiet .read fun _ => converts_convertWith _ hf hplain

/-- A root that can be assigned to counts as a leaf from then on. -/
theorem builds_isTargetAt {kept : List Held} {i : NodeId} {k : Bool → Parse β}
    {result : β → List Held → Prop}
    (hk : ∀ found, Builds (kept ++ [(i, if found then .leaf false else .plain)]) (k found) result) :
    Builds (kept ++ [(i, .plain)]) (isTargetAt i >>= k) result := by
  intro rest ctx s b s' hgrown hrun
  refine hk (s.forest.satisfies (some i) Node.isTarget) ?_ hrun
  have hplain := hgrown.roles (i, .plain) (by simp)
  rw [List.append_assoc] at hgrown ⊢
  refine hgrown.recast ?_
  split
  · exact hplain.leaf_of_satisfies ‹_›
  · exact hplain

end Pattern
end Untangle
