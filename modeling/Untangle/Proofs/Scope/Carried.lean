import Untangle.Proofs.Scope.Meaning
import Untangle.Proofs.Tree.Slots

/-!
# Carrying nodes over to another tree

An edit leaves most nodes of a tree where they are and gives some of them new children. The walk
that resolves names comes to the nodes that stay in the same way as before, so that the same names
are used there.
-/

namespace Untangle

open Forest
open Relation (ReflTransGen)

/-!
## Errands of carried nodes
-/

def Errand.map (c : NodeId → NodeId) (e : Errand) : Errand :=
  { e with slot := e.slot.map c }

namespace Node

variable {n : Node Slot} {c : NodeId → NodeId} {p : Purpose}

theorem again?_map : (n.map (Option.map c)).again? p = n.again? p := by
  cases n with
  | guarded form condition statement => cases form <;> cases p <;> rfl
  | bare form | operand form argument | list form elements | binary form left operator right
  | name form text => cases form <;> cases p <;> rfl
  | _ => cases p <;> rfl

theorem map_toValue_children (n : Node Slot) :
    ((Forest.childrenOf (n.map (Option.map c))).map fun i => Errand.toValue (some i)) =
      ((Forest.childrenOf n).map fun i => Errand.toValue (some i)).map (Errand.map c) := by
  rw [childrenOf_map, List.map_map, List.map_map]
  rfl

theorem errands_map : (n.map (Option.map c)).errands p = (n.errands p).map (Errand.map c) := by
  have hchildren := n.map_toValue_children (c := c)
  cases p with
  | target kind =>
      cases n with
      | guarded form condition statement => cases form <;> rfl
      | property form key value computed => cases computed <;> rfl
      | list form elements =>
          simp [errands, targetErrands, map, mapM, Errand.map, Errand.toTarget,
            Function.comp_def]
      | _ => rfl
  | value kind =>
      cases n with
      | guarded form condition statement => cases form <;> first | rfl | exact hchildren
      | property form key value computed => cases computed <;> rfl
      | method form key value computed isStatic => cases computed <;> rfl
      | field key value computed isStatic => cases computed <;> rfl
      | call form callee arguments isOptional inChain =>
          cases form with
          | call =>
              simp [errands, valueErrands, map, mapM, Errand.map, Errand.toValue,
                Function.comp_def]
          | construct => exact hchildren
      | access form object key isOptional inChain =>
          cases form with
          | property => rfl
          | element => exact hchildren
      | binary form left operator right =>
          cases form with
          | assignment => rfl
          | _ => exact hchildren
      | function form ident parameters code isAsync isGenerator =>
          simp [errands, valueErrands, map, mapM, Errand.map, Errand.toValue, Errand.toTarget,
            Function.comp_def]
      | classLike form ident heritage members =>
          simp [errands, valueErrands, map, mapM, Errand.map, Errand.toValue,
            Function.comp_def]
      | declarator _ _ | catchClause _ _ | labeled _ _ | jump _ _ | unary _ _ _
      | iteration _ _ _ _ _ => rfl
      | _ => exact hchildren

theorem identifierText?_eq_some_iff {text : String} :
    n.identifierText? = some text ↔ n = .name .identifier text := by
  constructor
  · intro h
    unfold identifierText? at h
    split at h
    · exact congrArg _ (Option.some.inj h)
    · cases h
  · rintro rfl
    rfl

/-- All children are looked at for their values. -/
def Uniform (n : Node Slot) : Prop :=
  ∀ p, n.again? p = none →
    n.errands p = (Forest.childrenOf n).map fun i => Errand.toValue (some i)

theorem Uniform.of_value
    (h : n.valueErrands = (Forest.childrenOf n).map fun i => Errand.toValue (some i))
    (hagain : (n.again? (.target none)).isSome) : n.Uniform := by
  intro p hp
  cases p with
  | value kind => exact h
  | target kind =>
      -- Whether a target is taken up again does not depend on its kind.
      have hsome : (n.again? (.target kind)).isSome := by
        revert hagain
        unfold again?
        dsimp only
        split <;> simp
      rw [hp] at hsome
      cases hsome

/-- To the walk that resolves names, the second node is the first one with renamed children. -/
structure Carries (c : NodeId → NodeId) (n n' : Node Slot) : Prop where
  again? : ∀ p, n'.again? p = n.again? p
  text : n'.identifierText? = n.identifierText?
  children : n' = n.map (Option.map c) ∨ n.Uniform ∧ n'.Uniform

theorem carries_map (c : NodeId → NodeId) (n : Node Slot) : Carries c n (n.map (Option.map c)) := by
  refine ⟨fun _ => again?_map, ?_, .inl rfl⟩
  cases n with
  | guarded form condition statement => cases form <;> rfl
  | _ => rfl

end Node

theorem Forest.identifierText?_eq_some_iff {f : Forest} {s : Slot} {text : String} :
    f.identifierText? s = some text ↔ f.node? s = some (.name .identifier text) := by
  simp [identifierText?, Option.bind_eq_some_iff, Node.identifierText?_eq_some_iff]

/-!
## Carried trees
-/

/-- The tree of `g` is that of `f` with new nodes in the place of some old ones. Nodes that stay
have the parents they had. -/
structure Carried (f g : Forest) (root : NodeId) (c : NodeId → NodeId) : Prop where
  node : ∀ {i n}, f.node? (some i) = some n →
    ∃ n', g.node? (some i) = some n' ∧ n.Carries c n'
  fresh : ∀ {i}, c i ≠ i → f.size ≤ c i
  below : ∀ {i}, g.Within i root → i < f.size → i ≠ root → g.parent (some i) = f.parent (some i)

namespace Carried

variable {f g : Forest} {root i j : NodeId} {c : NodeId → NodeId} (h : Carried f g root c)

include h

theorem link (hi : g.Within i root) (hlt : i < f.size) (hne : i ≠ root) :
    g.Link i j ↔ f.Link i j := by
  rw [Link, Link, h.below hi hlt hne]

theorem within (hf : f.WellFormed) (hi : g.Within i root) (hlt : i < f.size) :
    f.Within i root := by
  induction hi using ReflTransGen.head_induction_on with
  | refl => exact .refl
  | @head a b hlink hpath ih =>
      by_cases ha : a = root
      · rw [ha]
        exact .refl
      · have hlink' := (h.link (.head hlink hpath) hlt ha).mp hlink
        exact .head hlink' (ih (hf.lt_size_of_link hlink'))

/-- An old node is renamed by `c` only when it is no longer there. -/
theorem eq_of_renamed (hlt : i < f.size) (hi : c j = i) : j = i := by
  by_contra hne
  have hj : c j ≠ j := fun heq => hne (heq.symm.trans hi)
  exact Nat.not_lt.mpr (hi ▸ h.fresh hj) hlt

variable {n n' : Node Slot} {p q : Purpose}

/-- The walk goes on from a revised node to the old children as it did before. -/
theorem errand_iff (hf : f.WellFormed) (hg : g.WellFormed) (hn : f.node? (some j) = some n)
    (hn' : g.node? (some j) = some n') (hagain : n.again? p = none) (hi : g.Within i root)
    (hlt : i < f.size) (hne : i ≠ root) :
    (∃ e ∈ n'.errands p, e.purpose = q ∧ e.slot = some i) ↔
      ∃ e ∈ n.errands p, e.purpose = q ∧ e.slot = some i := by
  obtain ⟨m, hm, hcarries⟩ := h.node hn
  obtain rfl := Option.some.inj (hn'.symm.trans hm)
  rcases hcarries.children with rfl | ⟨hall, hall'⟩
  · rw [Node.errands_map]
    constructor
    · rintro ⟨e', he', hq, hs⟩
      rcases List.mem_map.mp he' with ⟨e, he, rfl⟩
      rcases Option.map_eq_some_iff.mp hs with ⟨k, hk, hki⟩
      exact ⟨e, he, hq, hk.trans (congrArg some (h.eq_of_renamed hlt hki))⟩
    · rintro ⟨e, he, hq, hs⟩
      refine ⟨e.map c, List.mem_map_of_mem he, hq, ?_⟩
      -- The child is still in a slot, and nothing else is renamed to it.
      have hlink : g.Link i j := (h.link hi hlt hne).mpr (hf.link_of_errand hn he hs)
      have hmem := hg.linked.mp hlink
      rw [children_of_node? hn', mem_childrenOf, Node.slots_map] at hmem
      rcases List.mem_map.mp hmem with ⟨s, _, hsi⟩
      rcases Option.map_eq_some_iff.mp hsi with ⟨k, _, hki⟩
      obtain rfl := h.eq_of_renamed hlt hki
      change e.slot.map c = _
      rw [hs, Option.map_some, hki]
  · rw [hall p hagain, hall' p ((hcarries.again? p).trans hagain)]
    have hchild : i ∈ childrenOf n' ↔ i ∈ childrenOf n := by
      have hlink := h.link hi hlt hne (j := j)
      rwa [Link, Link, hf.linked, hg.linked, children_of_node? hn, children_of_node? hn'] at hlink
    simp only [List.mem_map, exists_exists_and_eq_and, Errand.slot_toValue, Option.some.injEq]
    constructor
    · rintro ⟨k, hk, hq, rfl⟩
      exact ⟨k, hchild.mp hk, hq, rfl⟩
    · rintro ⟨k, hk, hq, rfl⟩
      exact ⟨k, hchild.mpr hk, hq, rfl⟩

/-- The walk comes to the nodes that stay as it did before. -/
theorem reached_iff (hf : f.WellFormed) (hg : g.WellFormed) (hroot : f.parent (some root) = none)
    (hroot' : g.parent (some root) = none) (hi : g.Within i root) (hlt : i < f.size) :
    Reached g root (p, i) ↔ Reached f root (p, i) := by
  have hne : ∀ {k : Forest} {a b : NodeId}, k.parent (some root) = none → k.Link a b →
      a ≠ root := by
    rintro k a b hk hlink rfl
    cases hk.symm.trans hlink
  constructor
  · intro hreached
    generalize hx : (p, i) = x at hreached
    induction hreached generalizing p i with
    | refl =>
        cases hx
        exact .refl
    | tail hpath hnext ih =>
        cases hnext with
        | @again _ n' _ q hn' hq =>
            cases hx
            obtain ⟨m, hm, hcarries⟩ := h.node (node?_of_lt hlt)
            obtain rfl := Option.some.inj (hn'.symm.trans hm)
            rw [hcarries.again?] at hq
            exact .tail (ih hi hlt rfl) (.again (node?_of_lt hlt) hq)
        | @child j _ n' q e hn' hagain he hc =>
            cases hx
            have hlink := hg.link_of_errand hn' he hc
            have hi' := hne hroot' hlink
            have hj : g.Within j root := by
              rcases ReflTransGen.cases_head hi with rfl | ⟨b, hb, hpath'⟩
              · exact absurd rfl hi'
              · exact Link.unique hlink hb ▸ hpath'
            have hjlt := hf.lt_size_of_link ((h.link hi hlt hi').mp hlink)
            obtain ⟨m, hm, hcarries⟩ := h.node (node?_of_lt hjlt)
            obtain rfl := Option.some.inj (hn'.symm.trans hm)
            rw [hcarries.again?] at hagain
            rcases (h.errand_iff hf hg (node?_of_lt hjlt) hn' hagain hi hlt hi').mp
              ⟨e, he, rfl, hc⟩ with ⟨e', he', hpurpose, hc'⟩
            rw [← hpurpose]
            exact .tail (ih hj hjlt rfl) (.child (node?_of_lt hjlt) hagain he' hc')
  · intro hreached
    generalize hx : (p, i) = x at hreached
    induction hreached generalizing p i with
    | refl =>
        cases hx
        exact .refl
    | tail hpath hnext ih =>
        cases hnext with
        | @again _ n _ q hn hq =>
            cases hx
            rcases h.node hn with ⟨n', hn', hcarries⟩
            rw [← hcarries.again?] at hq
            exact .tail (ih hi hlt rfl) (.again hn' hq)
        | @child j _ n q e hn hagain he hc =>
            cases hx
            have hlink := hf.link_of_errand hn he hc
            have hi' := hne hroot hlink
            have hlink' := (h.link hi hlt hi').mpr hlink
            have hj : g.Within j root := by
              rcases ReflTransGen.cases_head hi with rfl | ⟨b, hb, hpath'⟩
              · exact absurd rfl hi'
              · exact Link.unique hlink' hb ▸ hpath'
            rcases h.node hn with ⟨n', hn', hcarries⟩
            rcases (h.errand_iff hf hg hn hn' hagain hi hlt hi').mpr ⟨e, he, rfl, hc⟩ with
              ⟨e', he', hpurpose, hc'⟩
            rw [← hcarries.again?] at hagain
            rw [← hpurpose]
            exact .tail (ih hj (lt_size_of_node? hn) rfl) (.child hn' hagain he' hc')

theorem used_iff (hf : f.WellFormed) (hg : g.WellFormed) (hroot : f.parent (some root) = none)
    (hroot' : g.parent (some root) = none) (hi : g.Within i root) (hlt : i < f.size)
    {kind : ReferenceKind} {name : String} :
    Used g root kind name i ↔ Used f root kind name i := by
  have hname : g.node? (some i) = some (.name .identifier name) ↔
      f.node? (some i) = some (.name .identifier name) := by
    obtain ⟨m, hm, hcarries⟩ := h.node (node?_of_lt hlt)
    rw [hm, node?_of_lt hlt, Option.some.injEq, Option.some.injEq,
      ← Node.identifierText?_eq_some_iff, ← Node.identifierText?_eq_some_iff,
      hcarries.text]
  constructor
  · rintro ⟨hn, p, hreached, hkind⟩
    exact ⟨hname.mp hn, p, (h.reached_iff hf hg hroot hroot' hi hlt).mp hreached, hkind⟩
  · rintro ⟨hn, p, hreached, hkind⟩
    exact ⟨hname.mpr hn, p, (h.reached_iff hf hg hroot hroot' hi hlt).mpr hreached, hkind⟩

theorem identifierText?_eq (hlt : i < f.size) :
    g.identifierText? (some i) = f.identifierText? (some i) := by
  obtain ⟨n, hn⟩ : ∃ n, f.node? (some i) = some n := ⟨_, node?_of_lt hlt⟩
  obtain ⟨n', hn', hcarries⟩ := h.node hn
  rw [identifierText?, identifierText?, hn, hn']
  exact hcarries.text

/-- The innermost scope around a node that stays is the one it was in, where the same nodes open
scopes. -/
theorem inside (hopens : ∀ {k}, g.Within k root → k < f.size →
      (Bindings.Opens g root k ↔ Bindings.Opens f root k))
    (hf : f.WellFormed) (hi : g.Within i root) (hlt : i < f.size) {x : NodeId}
    (hinside : f.Inside (Bindings.Opens f root) i x) :
    g.Inside (Bindings.Opens g root) i x := by
  induction hinside with
  | here hopen => exact .here ((hopens hi hlt).mpr hopen)
  | @outward i b x hopen hlink _ ih =>
      have hi' : i ≠ root := by
        rintro rfl
        exact hopen (.inl rfl)
      have hlink' := (h.link hi hlt hi').mpr hlink
      have hb : g.Within b root := by
        rcases ReflTransGen.cases_head hi with rfl | ⟨b', hb', hpath⟩
        · exact absurd rfl hi'
        · exact Link.unique hlink' hb' ▸ hpath
      exact .outward (fun hopen' => hopen ((hopens hi hlt).mp hopen')) hlink'
        (ih hb (hf.lt_size_of_link hlink))

/-- The walk gives up only where it gave up before, if it does not give up at what takes the place
of a node before it did so at that node. -/
theorem cut_mem_itinerary {opened opened' : NodeId → Option ScopeId}
    (hf : f.WellFormed)
    (hchild : ∀ {i n n'}, f.node? (some i) = some n → g.node? (some i) = some n' →
      ∀ b ∈ childrenOf n', ∃ a ∈ childrenOf n, c a = b)
    (hmoved : ∀ {a depth p o o'}, c a ≠ a → .cut ∈ g.itinerary opened' depth p o' (some (c a)) →
      .cut ∈ f.itinerary opened depth p o (some a))
    {depth : Nat} {p : Purpose} {o o' : Outlook} {s : Slot} (hs : ∀ i, s = some i → i < f.size)
    (hcut : .cut ∈ g.itinerary opened' depth p o' (s.map c)) :
    .cut ∈ f.itinerary opened depth p o s := by
  induction depth generalizing p o o' s with
  | zero => exact List.mem_singleton_self _
  | succ depth ih =>
      cases s with
      | none => cases hcut
      | some i =>
          rw [Option.map_some] at hcut
          by_cases hi : c i = i
          · obtain ⟨n, hn⟩ : ∃ n, f.node? (some i) = some n := ⟨_, node?_of_lt (hs i rfl)⟩
            rcases h.node hn with ⟨n', hn', hcarries⟩
            rw [hi] at hcut
            cases hq : n.again? p with
            | some q =>
                rw [itinerary_again hn' ((hcarries.again? p).trans hq)] at hcut
                rw [itinerary_again hn hq]
                rw [← hi] at hcut
                exact ih hs hcut
            | none =>
                have hq' := (hcarries.again? p).trans hq
                rw [itinerary_here hn' hq', List.mem_append, List.mem_flatMap] at hcut
                rw [itinerary_here hn hq, List.mem_append, List.mem_flatMap]
                rcases hcut with hcut | ⟨e', he', hcut⟩
                · exact absurd hcut (cut_not_mem_stops n')
                · have hlive : ∀ {e}, e ∈ n.errands p → ∀ k, e.slot = some k → k < f.size :=
                    fun he k hk => lt_size_of_parent (hf.link_of_errand hn he hk)
                  rcases hcarries.children with rfl | ⟨hall, hall'⟩
                  · rw [Node.errands_map] at he'
                    rcases List.mem_map.mp he' with ⟨e, he, rfl⟩
                    exact .inr ⟨e, he, ih (hlive he) hcut⟩
                  · rw [hall' p hq'] at he'
                    rcases List.mem_map.mp he' with ⟨b, hb, rfl⟩
                    rcases hchild hn hn' b hb with ⟨a, ha, rfl⟩
                    have he : Errand.toValue (some a) ∈ n.errands p := by
                      rw [hall p hq]
                      exact List.mem_map_of_mem ha
                    exact .inr ⟨_, he, ih (s := some a) (hlive he) hcut⟩
          · exact hmoved hi hcut

end Carried
end Untangle
