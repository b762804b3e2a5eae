import Untangle.Proofs.Rewrite.StatementProxies
import Untangle.Proofs.Tree.Copy
import Untangle.Proofs.Tree.Edits

/-!
# Instances of proxies

The expression that replaces a call repeats the expression of the proxy node by node, except that
copies of the arguments stand where the parameters stood. While the parameters are exchanged one
after another, those that are still to come are found in their places.
-/

namespace Untangle

open Forest
open Relation (ReflTransGen)

/-!
## Grown forests
-/

namespace Forest

variable {f g : Forest} {i j k c p v : NodeId} {n : Node Slot}

theorem Extends.isReference (h : Extends f g) (hf : f.WellFormed) (hi : i < f.size) :
    g.isReference (some i) = f.isReference (some i) := by
  have hparent := h.parent hi
  rw [Forest.isReference, Forest.isReference, hparent]
  cases hp : f.parent (some i) with
  | none => rfl
  | some p => rw [h.node? (hf.lt_size_of_link hp)]

/-- Nothing is below a node without slots. -/
theorem eq_of_within_leaf (hf : f.WellFormed) (hn : f.node? (some i) = some n)
    (hslots : n.slots = []) (hk : f.Within k i) : k = i := by
  rcases within_iff.mp hk with rfl | ⟨c, hlink, _⟩
  · rfl
  · have hmem := hf.linked.mp hlink
    rw [children_of_node? hn, childrenOf, hslots] at hmem
    cases hmem

theorem Copied.node?_of_leaf {s : NodeId} (h : Copied f f g s i) (hn : f.node? (some s) = some n)
    (hslots : n.slots = []) : g.node? (some i) = some n := by
  rcases h.mirrors with ⟨source, hmirrors, -, rfl⟩
  rcases hmirrors .refl with ⟨m, hm, hsource⟩
  obtain rfl := Option.some.inj (hn.symm.trans hsource)
  rw [Node.slots_map, List.map_eq_nil_iff] at hslots
  have hsame : m.map (Option.map source) = m.map id :=
    Node.map_congr fun s hs => by rw [hslots] at hs; cases hs
  rw [hm, hsame, Node.map_id]

end Forest

namespace StatementProxy

variable {g h h' : Forest} {b : Bindings} {arg : NodeId → Option Slot} {log : List Replica}
  {rest : List NodeId} {source : NodeId → NodeId} {e j k v a : NodeId} {n : Node Slot}

/-!
## Drafts
-/

/-- The node at `k` repeats its source, which is no parameter or has yet to make way for its
argument, or else it is the copy of an argument. -/
inductive Part (g : Forest) (b : Bindings) (arg : NodeId → Option Slot) (log : List Replica)
    (rest : List NodeId) (source : NodeId → NodeId) (k : NodeId) (m : Node Slot) : Prop
  | copy (hsource : g.node? (some (source k)) = some (m.map (Option.map source)))
      (hrest : k ∈ rest ∨ arg (source k) = none) (hlog : replica b (source k) k ∈ log)
  | argument {a : NodeId} (harg : arg (source k) = some (some a))
      (hnode : g.node? (some a) = some m) (hslots : m.slots = []) (hlog : replica b a k ∈ log)

/-- From `g`, the expression `e` has been copied to `j`, and arguments have been put in the places
of all parameters but some. -/
structure Draft (g h : Forest) (b : Bindings) (arg : NodeId → Option Slot) (log : List Replica)
    (rest : List NodeId) (source : NodeId → NodeId) (e j : NodeId) : Prop where
  extends_ : Extends g h
  wellFormed : h.WellFormed
  free : h.Free j
  new : ∀ k, h.Within k j → g.size ≤ k
  root : source j = e
  below : ∀ k, h.Within k j → g.Within (source k) e
  node : ∀ k, h.Within k j → ∃ m, h.node? (some k) = some m ∧ Part g b arg log rest source k m
  injective : ∀ k k', h.Within k j → h.Within k' j → source k = source k' → k = k'
  pending : ∀ k ∈ rest, h.Within k j

theorem Part.mono {log' : List Replica} {rest' : List NodeId} {m : Node Slot}
    (hpart : Part g b arg log rest source k m) (hlog : log ⊆ log')
    (hrest : k ∈ rest → k ∈ rest' ∨ arg (source k) = none) :
    Part g b arg log' rest' source k m := by
  cases hpart with
  | copy hsource hk hmem => exact .copy hsource (hk.elim hrest .inr) (hlog hmem)
  | argument harg hnode hslots hmem => exact .argument harg hnode hslots (hlog hmem)

/-- Sources may be named anew, and children may make way for others with the same sources. -/
theorem Part.move {source' : NodeId → NodeId} {m m' : Node Slot}
    (hpart : Part g b arg log rest source k m) (hk : source' k = source k)
    (hmap : m'.map (Option.map source') = m.map (Option.map source))
    (hleaf : m.slots = [] → m' = m) : Part g b arg log rest source' k m' := by
  cases hpart with
  | copy hsource hrest hlog =>
      apply Part.copy
      · rw [hk, hmap]
        exact hsource
      · rwa [hk]
      · rwa [hk]
  | argument harg hnode hslots hlog =>
      rw [hleaf hslots]
      exact .argument (hk ▸ harg) hnode hslots hlog

/-- A parameter has no parts. -/
theorem Part.slots_eq_nil {m : Node Slot} (hpart : Part g b arg log rest source k m)
    (hleaf : ∀ n, g.node? (some (source k)) = some n → n.slots = []) : m.slots = [] := by
  cases hpart with
  | copy hsource _ _ =>
      have hslots := hleaf _ hsource
      rw [Node.slots_map] at hslots
      exact List.map_eq_nil_iff.mp hslots
  | argument _ _ hslots _ => exact hslots

namespace Draft

variable (hd : Draft g h b arg log rest source e j)

include hd

theorem grow (hx : Extends h h') (hwf : h'.WellFormed) : Draft g h' b arg log rest source e j := by
  have hold : ∀ k, h'.Within k j → k < h.size ∧ h.Within k j := fun k hk =>
    hx.within hd.wellFormed hwf hd.free.1 hk
  refine ⟨hd.extends_.trans hx, hwf, hx.free hd.free, ?_, hd.root, ?_, ?_, ?_, ?_⟩
  · exact fun k hk => hd.new k (hold k hk).2
  · exact fun k hk => hd.below k (hold k hk).2
  · intro k hk
    rcases hd.node k (hold k hk).2 with ⟨m, hm, hpart⟩
    exact ⟨m, (hx.node? (hold k hk).1).trans hm, hpart⟩
  · exact fun k k' hk hk' => hd.injective k k' (hold k hk).2 (hold k' hk').2
  · exact fun k hk => hx.within_mono (hd.pending k hk)

end Draft

/-- What is no parameter stays. -/
theorem Draft.keep (hd : Draft g h b arg log (k :: rest) source e j)
    (hk : arg (source k) = none) : Draft g h b arg log rest source e j := by
  refine ⟨hd.extends_, hd.wellFormed, hd.free, hd.new, hd.root, hd.below, ?_, hd.injective,
    fun k' hk' => hd.pending k' (List.mem_cons_of_mem _ hk')⟩
  intro k' hk'
  rcases hd.node k' hk' with ⟨m, hm, hpart⟩
  refine ⟨m, hm, hpart.mono (List.Subset.refl _) fun hmem => ?_⟩
  rcases List.mem_cons.mp hmem with rfl | hmem
  · exact .inr hk
  · exact .inl hmem

/-- The argument that a parameter makes way for. -/
structure Argument (g h : Forest) (arg : NodeId → Option Slot) (source : NodeId → NodeId)
    (k a v : NodeId) (n : Node Slot) : Prop where
  arg : arg (source k) = some (some a)
  original : g.node? (some a) = some n
  slots : n.slots = []
  free : h.Free v
  node : h.node? (some v) = some n

/-- The expression is a parameter by itself. -/
theorem Draft.whole (hd : Draft g h b arg log [k] source e k) (hv : Argument g h arg source k a v n)
    (hnew : g.size ≤ v) :
    Draft g h b arg (log ++ [replica b a v]) [] (Function.update source v (source k)) e v := by
  have hroot : Function.update source v (source k) v = source k := Function.update_self ..
  have honly : ∀ i, h.Within i v → i = v := fun i hi =>
    eq_of_within_leaf hd.wellFormed hv.node hv.slots hi
  refine ⟨hd.extends_, hd.wellFormed, hv.free, ?_, hroot.trans hd.root, ?_, ?_, ?_, by simp⟩
  · intro i hi
    rw [honly i hi]
    exact hnew
  · intro i hi
    rw [honly i hi, hroot]
    exact hd.below k .refl
  · intro i hi
    rw [honly i hi]
    refine ⟨n, hv.node, .argument ?_ hv.original hv.slots ?_⟩
    · rw [hroot]
      exact hv.arg
    · exact List.mem_append_right _ (List.mem_singleton_self _)
  · intro i i' hi hi' _
    rw [honly i hi, honly i' hi']

section Exchange

variable {q : NodeId} {owner : Node Slot}

theorem map_replace {σ τ : Slot → Slot} {s t : Slot} {slots : List Slot}
    (hsame : ∀ r ∈ slots, σ r = τ r) (ht : σ t = τ s) :
    (slots.replace s t).map σ = slots.map τ := by
  induction slots with
  | nil => rfl
  | cons r slots ih =>
      rw [List.forall_mem_cons] at hsame
      by_cases hr : s = r
      · subst hr
        rw [List.replace_cons_self, List.map_cons, List.map_cons, ht,
          List.map_congr_left hsame.2]
      · rw [List.replace_cons, beq_false_of_ne hr, List.map_cons, List.map_cons, hsame.1,
          ih hsame.2]

/-- A node whose child makes way for a node with the same source repeats the same source. -/
theorem map_replaceFirst (hv : some v ∉ owner.slots) :
    ((owner.replaceFirst (some k) (some v)).1).map
        (Option.map (Function.update source v (source k))) =
      owner.map (Option.map source) := by
  have hsame : ∀ s ∈ owner.slots,
      s.map (Function.update source v (source k)) = s.map source := by
    intro s hs
    cases s with
    | none => rfl
    | some c =>
        have hne : c ≠ v := by
          rintro rfl
          exact hv hs
        exact congrArg some (Function.update_of_ne hne ..)
  apply Node.eq_of_blank_of_slots
  · rw [Node.blank_map, Node.blank_map, Node.blank_replaceFirst]
  · rw [Node.slots_map, Node.slots_map, Node.slots_replaceFirst]
    exact map_replace hsame (congrArg some (Function.update_self ..))

/-- What is below the draft after a parameter without parts has made way for a leaf. -/
theorem within_exchanged (hf : h.WellFormed) {changed m : Node Slot}
    (hr : Rewired h h' q k changed [v]) (hx : Exchangeable h q k owner changed [v])
    (hk : h.node? (some k) = some m) (hkslots : m.slots = [])
    (hv : h.node? (some v) = some n) (hvslots : n.slots = [])
    (hq : h.Within q j) {i : NodeId} :
    h'.Within i j ↔ i = v ∨ i ≠ k ∧ h.Within i j := by
  have hleaf : ∀ {c}, ¬ h.Link c k := fun hlink => by
    have heq := eq_of_within_leaf hf hk hkslots (.single hlink)
    exact hf.acyclic k (.single (heq ▸ hlink))
  have hleaf' : ∀ {c}, ¬ h.Link c v := fun hlink => by
    have heq := eq_of_within_leaf hf hv hvslots (.single hlink)
    exact hf.acyclic v (.single (heq ▸ hlink))
  have hkj : j ≠ k := by
    rintro rfl
    exact hf.not_within_of_link hx.linked hq
  have hlink : ∀ {c p}, h'.Link c p → c < h.size := fun hlink =>
    hr.size ▸ lt_size_of_parent hlink
  constructor
  · intro hi
    induction hi using ReflTransGen.head_induction_on with
    | refl => exact .inr ⟨hkj, .refl⟩
    | @head c p hstep _ ih =>
        rcases (hr.link hx (hlink hstep)).mp hstep with ⟨hc, _⟩ | ⟨hc, hold⟩
        · exact .inl (List.mem_singleton.mp hc)
        · rcases ih with rfl | ⟨_, hp⟩
          · exact absurd hold hleaf'
          · exact .inr ⟨hc, .head hold hp⟩
  · have hold : ∀ {c}, c ≠ k → h.Within c j → h'.Within c j := by
      intro c hc hpath
      induction hpath using ReflTransGen.head_induction_on with
      | refl => exact .refl
      | @head c p hstep _ ih =>
          have hp : p ≠ k := by
            rintro rfl
            exact hleaf hstep
          have hnew := (hr.link hx (lt_size_of_parent hstep)).mpr (.inr ⟨hc, hstep⟩)
          exact .head hnew (ih hp)
    rintro (rfl | ⟨hi, hpath⟩)
    · have hqk : q ≠ k := by
        rintro rfl
        exact hleaf hx.linked
      have hnew := (hr.link hx (lt_size_of_node? hv)).mpr
        (.inl ⟨List.mem_singleton_self _, rfl⟩)
      exact .head hnew (hold hqk hq)
    · exact hold hi hpath

/-- An argument is put in the place of a parameter inside the expression. -/
theorem Draft.exchange (hd : Draft g h b arg log (k :: rest) source e j) (hkj : k ≠ j)
    (hnodup : (k :: rest).Nodup) (hleaf : ∀ n, g.node? (some (source k)) = some n → n.slots = [])
    (hv : Argument g h arg source k a v n) (hnew : g.size ≤ v) (hout : ¬ h.Within v j) :
    ∃ h', h.replace (some k) (some v) = (h', true) ∧
      Draft g h' b arg (log ++ [replica b a v]) rest (Function.update source v (source k)) e j := by
  have hf := hd.wellFormed
  have hkin : h.Within k j := hd.pending k List.mem_cons_self
  rcases hd.node k hkin with ⟨m, hm, hkpart⟩
  have hslots := hkpart.slots_eq_nil hleaf
  obtain ⟨q, hlink, hq⟩ : ∃ q, h.Link k q ∧ h.Within q j := by
    rcases ReflTransGen.cases_head hkin with heq | hpath
    · exact absurd heq hkj
    · exact hpath
  have habove : ¬ h.Within k v := fun hpath => by
    have heq := eq_of_within_leaf hf hv.node hv.slots hpath
    exact hout (heq ▸ hkin)
  rcases rewired_replace hf hlink hv.free habove with ⟨h', owner, hreplace, hr, hx⟩
  have hin : ∀ {i}, h'.Within i j ↔ i = v ∨ i ≠ k ∧ h.Within i j :=
    within_exchanged hf hr hx hm hslots hv.node hv.slots hq
  have hupdate : ∀ {i}, h.Within i j → Function.update source v (source k) i = source i := by
    intro i hi
    refine Function.update_of_ne ?_ ..
    rintro rfl
    exact hout hi
  have hself : Function.update source v (source k) v = source k := Function.update_self ..
  have hjv : j ≠ v := by
    rintro rfl
    exact hout .refl
  refine ⟨h', hreplace, ?_, ?_, ?_, ?_, ?_, ?_, ?_, ?_, ?_⟩
  · refine ⟨hr.size ▸ hd.extends_.size_le, fun {i} hi => ?_⟩
    have hold : ∀ {c}, g.size ≤ c → i ≠ c := fun hc =>
      Nat.ne_of_lt (Nat.lt_of_lt_of_le hi hc)
    rw [hr.cell, hd.extends_.cell hi]
    simp [hold (hd.new q hq), hold (hd.new k hkin), hold hnew]
  · have hmem : some k ∈ owner.slots := by
      rw [← mem_childrenOf, ← children_of_node? hx.owner]
      exact hf.linked.mp hlink
    exact hr.wellFormed hf hx (exchanged_replaceFirst hmem _) rfl
  · refine ⟨hr.size ▸ hd.free.1, ?_⟩
    rw [hr.parent hd.free.1, if_neg hkj.symm, if_neg (by simpa using hjv)]
    exact hd.free.2
  · intro i hi
    rcases hin.mp hi with rfl | ⟨_, hi⟩
    · exact hnew
    · exact hd.new i hi
  · exact (hupdate .refl).trans hd.root
  · intro i hi
    rcases hin.mp hi with rfl | ⟨_, hi⟩
    · rw [hself]
      exact hd.below k hkin
    · rw [hupdate hi]
      exact hd.below i hi
  · intro i hi
    rcases hin.mp hi with rfl | ⟨hik, hi⟩
    · have hqi : i ≠ q := by
        rintro rfl
        exact hout hq
      refine ⟨n, (hr.node?_of_ne hqi).trans hv.node, .argument ?_ hv.original hv.slots ?_⟩
      · rw [hself]
        exact hv.arg
      · exact List.mem_append_right _ (List.mem_singleton_self _)
    · rcases hd.node i hi with ⟨m', hm', hpart⟩
      have hrest : i ∈ k :: rest → i ∈ rest ∨ arg (source i) = none := fun hmem =>
        .inl ((List.mem_cons.mp hmem).resolve_left hik)
      have hpart := hpart.mono (List.subset_append_left log [replica b a v]) hrest
      have hslot : some v ∉ m'.slots := fun hmem =>
        hout (.head (hf.link_of_slot hm' hmem) hi)
      by_cases hiq : i = q
      · subst hiq
        obtain rfl := Option.some.inj (hm'.symm.trans hx.owner)
        refine ⟨_, hr.node?_self (lt_size_of_node? hm'), ?_⟩
        refine hpart.move (hupdate hi) (map_replaceFirst hslot) fun hnone => ?_
        have hmem := hf.linked.mp hlink
        rw [children_of_node? hm', childrenOf, hnone] at hmem
        cases hmem
      · refine ⟨m', (hr.node?_of_ne hiq).trans hm', ?_⟩
        refine hpart.move (hupdate hi) (Node.map_congr fun s hs => ?_) fun _ => rfl
        cases s with
        | none => rfl
        | some c => exact congrArg some (hupdate (.head (hf.link_of_slot hm' hs) hi))
  · intro i i' hi hi' hsame
    rcases hin.mp hi with rfl | ⟨hik, hi⟩
    · rcases hin.mp hi' with rfl | ⟨hik', hi'⟩
      · rfl
      · rw [hself, hupdate hi'] at hsame
        exact absurd (hd.injective k i' hkin hi' hsame).symm hik'
    · rcases hin.mp hi' with rfl | ⟨_, hi'⟩
      · rw [hself, hupdate hi] at hsame
        exact absurd (hd.injective i k hi hkin hsame) hik
      · rw [hupdate hi, hupdate hi'] at hsame
        exact hd.injective i i' hi hi' hsame
  · intro i hi
    have hik : i ≠ k := by
      rintro rfl
      exact (List.nodup_cons.mp hnodup).1 hi
    exact hin.mpr (.inr ⟨hik, hd.pending i (List.mem_cons_of_mem _ hi)⟩)

end Exchange

/-!
## Substitution
-/

section Substitute

variable {p : StatementProxy} {f : Forest} {args : List Slot} {copied : Slot} {made : Instance}
  {pairs : List (NodeId × NodeId)} {target : NodeId} {i : NodeId}

theorem run_substitute_keep (hi : p.argumentAt? f b args i = none) :
    (p.substitute b args copied made ((i, target) :: pairs)).run f =
      (p.substitute b args copied made pairs).run f := by
  simp only [substitute, List.foldlM_cons, StateT.run_bind, Edit.look, StateT.run_get,
    pure_bind, StateT.run_pure, hi]

theorem run_substitute_whole {f' : Forest} (hi : p.argumentAt? f b args i = some (some a))
    (hcopy : f.copy (some a) = (some v, f')) (htarget : some target = copied) :
    (p.substitute b args copied made ((i, target) :: pairs)).run f =
      (p.substitute b args copied ⟨some v, made.replicas ++ [replica b a v]⟩ pairs).run f' := by
  have hrun : (Edit.copy (some a)).run f = pure (some v, f') := hcopy
  simp only [substitute, List.foldlM_cons, StateT.run_bind, Edit.look, StateT.run_get,
    pure_bind, StateT.run_pure, hi, hrun, if_pos htarget]
  rfl

theorem run_substitute_inside {f' f'' : Forest} {done : Bool}
    (hi : p.argumentAt? f b args i = some (some a)) (hcopy : f.copy (some a) = (some v, f'))
    (htarget : some target ≠ copied) (hreplace : f'.replace (some target) (some v) = (f'', done)) :
    (p.substitute b args copied made ((i, target) :: pairs)).run f =
      (p.substitute b args copied ⟨made.root, made.replicas ++ [replica b a v]⟩ pairs).run f'' := by
  have hrun : (Edit.copy (some a)).run f = pure (some v, f') := hcopy
  have hrun' : (Edit.replace (some target) (some v)).run f' = pure (done, f'') :=
    congrArg Prod.swap hreplace
  simp only [substitute, List.foldlM_cons, StateT.run_bind, Edit.look, StateT.run_get,
    pure_bind, StateT.run_pure, hi, hrun, if_neg htarget, hrun']
  rfl

end Substitute

/-- What an expression needs to be instantiated: parameters and arguments have no parts. -/
structure Instantiable (p : StatementProxy) (g : Forest) (b : Bindings) (args : List Slot)
    (e : NodeId) : Prop where
  wellFormed : g.WellFormed
  lt_size : e < g.size
  parameters : ∀ i n, g.Within i e → p.argumentAt? g b args i ≠ none → g.node? (some i) = some n →
    n.slots = []
  arguments : ∀ s ∈ args, ∃ a n, s = some a ∧ g.node? (some a) = some n ∧ n.slots = []

variable {p : StatementProxy} {args : List Slot} {j₀ : NodeId} {made : Instance} {i : NodeId}

theorem mem_of_argumentAt? {s : Slot} (h : p.argumentAt? g b args i = some s) : s ∈ args := by
  unfold argumentAt? at h
  rcases Option.bind_eq_some_iff.mp h with ⟨_, _, h⟩
  rcases Option.bind_eq_some_iff.mp h with ⟨_, _, h⟩
  rcases Option.bind_eq_some_iff.mp h with ⟨_, _, h⟩
  exact List.mem_of_getElem? h

theorem argumentAt?_grow (hx : Extends g h) (hg : g.WellFormed) (hi : i < g.size) :
    p.argumentAt? h b args i = p.argumentAt? g b args i := by
  unfold argumentAt?
  rw [hx.isReference hg hi]

theorem run_substitute (hp : Instantiable p g b args e)
    (hd : Draft g h b (p.argumentAt? g b args) made.replicas rest source e j)
    (hroot : made.root = some j) (hj : j = j₀ ∨ rest = []) (hnodup : rest.Nodup) :
    ∃ made' h' source' j',
      (p.substitute b args (some j₀) made (rest.map fun k => (source k, k))).run h = (made', h') ∧
        made'.root = some j' ∧
        Draft g h' b (p.argumentAt? g b args) made'.replicas [] source' e j' := by
  induction rest generalizing made h source j with
  | nil => exact ⟨made, h, source, j, rfl, hroot, hd⟩
  | cons k rest ih =>
      obtain rfl := hj.resolve_right (List.cons_ne_nil _ _)
      have hkin := hd.pending k List.mem_cons_self
      have hwithin := hd.below k hkin
      have hlt : source k < g.size := lt_size_of_within hwithin hp.lt_size
      have hlookup : p.argumentAt? h b args (source k) = p.argumentAt? g b args (source k) :=
        argumentAt?_grow hd.extends_ hp.wellFormed hlt
      cases harg : p.argumentAt? g b args (source k) with
      | none =>
          rw [List.map_cons, run_substitute_keep (hlookup.trans harg)]
          exact ih (hd.keep harg) hroot (.inl rfl) (List.nodup_cons.mp hnodup).2
      | some s =>
          rcases hp.arguments s (mem_of_argumentAt? harg) with ⟨a, n, rfl, hn, hslots⟩
          have hleaf : ∀ m, g.node? (some (source k)) = some m → m.slots = [] := fun m hm =>
            hp.parameters (source k) m hwithin (by rw [harg]; nofun) hm
          have ha : a < h.size :=
            Nat.lt_of_lt_of_le (lt_size_of_node? hn) hd.extends_.size_le
          rcases copied_copy hd.wellFormed ha with ⟨v, h₁, hcopy, hcopied⟩
          have hold : h.node? (some a) = some n :=
            (hd.extends_.node? (lt_size_of_node? hn)).trans hn
          have hv : Argument g h₁ (p.argumentAt? g b args) source k a v n :=
            ⟨harg, hn, hslots, hcopied.free, hcopied.node?_of_leaf hold hslots⟩
          have hgrown := hd.grow hcopied.extends_ hcopied.wellFormed
          have hnew : h.size ≤ v := hcopied.new v .refl
          have hnew' : g.size ≤ v := hd.extends_.size_le.trans hnew
          have hout : ¬ h₁.Within v j := fun hpath =>
            Nat.not_lt.mpr hnew (hcopied.extends_.within hd.wellFormed hcopied.wellFormed
              hd.free.1 hpath).1
          by_cases hkj : k = j
          · subst hkj
            obtain rfl : rest = [] := by
              rcases hd.node k .refl with ⟨m, hm, hpart⟩
              have honly : ∀ i ∈ rest, i = k := fun i hi =>
                eq_of_within_leaf hd.wellFormed hm (hpart.slots_eq_nil hleaf)
                  (hd.pending i (List.mem_cons_of_mem _ hi))
              rw [List.eq_nil_iff_forall_not_mem]
              intro i hi
              exact (List.nodup_cons.mp hnodup).1 (honly i hi ▸ hi)
            have hwhole := hgrown.whole hv hnew'
            rw [List.map_cons, run_substitute_whole (hlookup.trans harg) hcopy rfl]
            exact ⟨_, _, _, v, rfl, rfl, hwhole⟩
          · obtain ⟨h₂, hreplace, hd₂⟩ := hgrown.exchange hkj hnodup hleaf hv hnew' hout
            have hsame : rest.map (fun i => (source i, i)) =
                rest.map fun i => (Function.update source v (source k) i, i) := by
              apply List.map_congr_left
              intro i hi
              have hne : i ≠ v := by
                rintro rfl
                exact hout (hgrown.pending i (List.mem_cons_of_mem _ hi))
              rw [Function.update_of_ne hne]
            rw [List.map_cons, run_substitute_inside (hlookup.trans harg) hcopy
              (fun heq => hkj (Option.some.inj heq)) hreplace, hsame]
            exact ih hd₂ hroot (.inl rfl) (List.nodup_cons.mp hnodup).2

/-- An instance repeats the expression with the arguments in the places of the parameters. -/
theorem run_instantiate (hp : Instantiable p g b args e) (he : p.expression = some e) :
    ∃ made h source j, (p.instantiate b args).run g = (made, h) ∧ made.root = some j ∧
      Draft g h b (p.argumentAt? g b args) made.replicas [] source e j := by
  rcases copied_copy hp.wellFormed hp.lt_size with ⟨j, h, hcopy, hcopied⟩
  rcases hcopied.mirrors with ⟨source, hmirrors, -, hroot⟩
  have hj := hcopied.free.1
  have htargets : ∀ {k}, k ∈ h.preorder (some j) ↔ h.Within k j :=
    hcopied.wellFormed.mem_preorder hj
  have hsources : (h.preorder (some j)).map source = g.preorder (some e) := by
    rw [hmirrors.map_preorder hp.wellFormed hcopied.wellFormed, hroot]
  have hpairs : (g.preorder (some e)).zip (h.preorder (some j)) =
      (h.preorder (some j)).map fun k => (source k, k) := by
    have hzip : ((h.preorder (some j)).map source).zip ((h.preorder (some j)).map id) =
        (h.preorder (some j)).map fun k => (source k, k) := List.zip_map'
    rwa [List.map_id, hsources] at hzip
  let pairs := (h.preorder (some j)).map fun k => (source k, k)
  let replicas := pairs.map fun q => replica b q.1 q.2
  have hd : Draft g h b (p.argumentAt? g b args) replicas (h.preorder (some j)) source e j := by
    refine ⟨hcopied.extends_, hcopied.wellFormed, hcopied.free, hcopied.new, hroot, ?_, ?_, ?_,
      fun k hk => htargets.mp hk⟩
    · intro k hk
      have hwithin := hmirrors.within hp.wellFormed hcopied.wellFormed hk
      rwa [hroot] at hwithin
    · intro k hk
      rcases hmirrors hk with ⟨m, hm, hsource⟩
      have hmem := htargets.mpr hk
      refine ⟨m, hm, .copy hsource (.inl hmem) ?_⟩
      exact List.mem_map.mpr ⟨(source k, k), List.mem_map.mpr ⟨k, hmem, rfl⟩, rfl⟩
    · exact fun k k' hk hk' hsame =>
        hmirrors.injective hp.wellFormed hcopied.wellFormed hk hk' hsame
  have hlast : (⟨some j, replicas⟩ : Instance).root = some j := rfl
  obtain ⟨made, h', source', j', hrun, hmade, hd'⟩ :=
    run_substitute hp hd hlast (.inl rfl) (hcopied.wellFormed.nodup_preorder hj)
  refine ⟨made, h', source', j', ?_, hmade, hd'⟩
  have hrun' : (Edit.copy (some e)).run g = pure (some j, h) := hcopy
  simp only [instantiate, StateT.run_bind, Edit.look, StateT.run_get, pure_bind, StateT.run_pure,
    he, hrun', hpairs]
  exact hrun

/-- Without an expression there is nothing to copy. -/
theorem run_instantiate_none (he : p.expression = none) :
    (p.instantiate b args).run g = (⟨none, []⟩, g) := by
  have hcopy : (Edit.copy none).run g = pure (none, g) :=
    run_copyWith_of_none rfl g.size
  simp only [instantiate, StateT.run_bind, Edit.look, StateT.run_get, pure_bind, StateT.run_pure,
    he, hcopy, preorder_none]
  rfl

end StatementProxy
end Untangle
