import Untangle.Proofs.Scope.DeclarationWalk

/-!
# The walk that resolves names

The second walk finds the scope of a region in the bindings: the nearest ancestor at which a scope
was opened decides it, with no regard to the slot it was reached through.
-/

namespace Untangle

open Forest Bindings

variable {α β : Type} {f : Forest} {root : NodeId} {b : Bindings}

/-!
## Scopes found by climbing
-/

/-- The scope opened at the nearest proper ancestor that opened one. -/
inductive Bindings.Around (f : Forest) (root : NodeId) (b : Bindings) : NodeId → ScopeId → Prop
  | root : Around f root b root programScope
  | inside {i p : NodeId} {x : ScopeId} (hlink : f.Link i p) (hp : b.opened[p]? = some x) :
      Around f root b i x
  | outside {i p : NodeId} {t : ScopeId} (hlink : f.Link i p) (hp : b.opened[p]? = none)
      (h : Around f root b p t) : Around f root b i t

namespace Bindings

variable {i c : NodeId} {n : Node Slot} {t : ScopeId}

/-- What is found at a node decides what is around its children. -/
theorem Around.child (hf : f.WellFormed) (h : Around f root b i t) (hn : f.node? (some i) = some n)
    (hc : some c ∈ n.slots) : Around f root b c ((b.opened[i]?).getD t) := by
  have hlink := hf.link_of_slot hn hc
  cases hi : b.opened[i]? with
  | none => exact .outside hlink hi h
  | some x => exact .inside hlink hi

theorem Around.eq_program (hroot : f.parent (some root) = none) (h : Around f root b root t) :
    t = programScope := by
  cases h with
  | root => rfl
  | inside hlink _ => cases hroot.symm.trans hlink
  | outside hlink _ _ => cases hroot.symm.trans hlink

/-- At a node of a kind that opens no scope the scope around it stays in force. -/
theorem Around.stays (hb : b.Settled f root) (hroot : f.parent (some root) = none)
    (h : Around f root b i t) (hn : f.node? (some i) = some n) (hkind : n.opensScope = false) :
    (b.opened[i]?).getD t = t := by
  cases hi : b.opened[i]? with
  | none => rfl
  | some x =>
      rcases hb.found hi with ⟨rfl, rfl⟩ | hx
      · exact (h.eq_program hroot).symm
      · exact absurd (hb.attached hx).1 (not_opener_of_kind hn hkind)

end Bindings

/-!
## Actions
-/

structure Roaming (f : Forest) (root : NodeId) (b : Bindings) (t t' : Trail) (c : Bindings)
    (new : List Arrival) : Prop where
  declared : t'.declared = t.declared
  resolved : t'.resolved = new ++ t.resolved
  same : b.SameScopes c
  around : ∀ a ∈ new, Around f root b a.2 a.1

/-- The action leaves the scopes as they are and reports the scopes around nodes. -/
def Roams (f : Forest) (root : NodeId) (b : Bindings) (act : Tracked α) : Prop :=
  ∀ ⦃t c⦄, b.SameScopes c →
    ∃ new, Roaming f root b t ((act.run t).run c).1.2 ((act.run t).run c).2 new

namespace Roams

variable {act : Tracked α} {k : α → Tracked β}

theorem pure (a : α) : Roams f root b (pure a) :=
  fun _ _ hc => ⟨[], rfl, rfl, hc, by simp⟩

theorem bind (hact : Roams f root b act) (hk : ∀ a, Roams f root b (k a)) :
    Roams f root b (act >>= k) := by
  intro t c hc
  rcases @hact t c hc with ⟨new, hfirst⟩
  rcases @hk _ ((act.run t).run c).1.2 _ hfirst.same with ⟨new', hthen⟩
  refine ⟨new' ++ new, ?_, ?_, hthen.same, ?_⟩
  · exact hthen.declared.trans hfirst.declared
  · exact hthen.resolved.trans (by rw [hfirst.resolved, List.append_assoc])
  · intro a ha
    rcases List.mem_append.mp ha with ha | ha
    · exact hthen.around a ha
    · exact hfirst.around a ha

theorem forM {items : List α} {act : α → Tracked PUnit}
    (h : ∀ a ∈ items, Roams f root b (act a)) : Roams f root b (items.forM act) := by
  induction items with
  | nil => exact pure _
  | cons a items ih =>
      refine bind (h a List.mem_cons_self) fun _ => ih fun c hc => ?_
      exact h c (List.mem_cons_of_mem a hc)

theorem ite {c : Prop} [Decidable c] {other : Tracked α} (h : Roams f root b act)
    (hother : Roams f root b other) : Roams f root b (if c then act else other) := by
  split
  · exact h
  · exact hother

theorem modify {change : Bindings → Bindings} (h : ∀ c : Bindings, c.SameScopes (change c)) :
    Roams f root b (modifyThe Bindings change) :=
  fun _ c hc => ⟨[], rfl, rfl, ⟨(h c).scopes.trans hc.scopes, (h c).opened.trans hc.opened⟩,
    by simp⟩

/-- The scopes that are found are those of the bindings the walk started with. -/
theorem look {k : Bindings → Tracked β} (hk : ∀ c, b.SameScopes c → Roams f root b (k c)) :
    Roams f root b (getThe Bindings >>= k) :=
  fun _ c hc => hk c hc hc

theorem visit {s : ScopeId} {i : NodeId} (hi : Around f root b i s) :
    Roams f root b (Trail.resolve s i) := by
  refine fun _ _ hc => ⟨[(s, i)], rfl, rfl, hc, fun a ha => ?_⟩
  rw [List.mem_singleton.mp ha]
  exact hi

end Roams

/-!
## References
-/

namespace Bindings

theorem sameScopes_markDynamic (b : Bindings) (inWith : Bool) (nameNode : Slot) :
    b.SameScopes (b.markDynamic inWith nameNode) := by
  unfold markDynamic
  split
  · cases b.resolve nameNode <;> exact ⟨rfl, rfl⟩
  · exact ⟨rfl, rfl⟩

theorem sameScopes_addReference (b : Bindings) (scope : ScopeId) (inWith : Bool)
    (kind : ReferenceKind) (name : String) (node : NodeId) :
    b.SameScopes (b.addReference scope inWith kind name node) := by
  unfold addReference
  extract_lets c
  have hc : b.SameScopes c := by
    change b.SameScopes (if inWith then _ else _)
    split <;> exact ⟨rfl, rfl⟩
  split
  · exact hc
  · exact ⟨hc.scopes, hc.opened⟩

end Bindings

/-!
## Productions
-/

namespace ResolutionWalk

/-- The walk of the next deeper level carries the scope around the nodes that it is given. -/
structure Follows (f : Forest) (root : NodeId) (b : Bindings) (w : ResolutionWalk Tracked) :
    Prop where
  node : ∀ {o kind s}, (∀ c, s = some c → Around f root b c o.scope) →
    Roams f root b (w.node o kind s)
  pattern : ∀ {o kind s}, (∀ c, s = some c → Around f root b c o.scope) →
    Roams f root b (w.pattern o kind s)

variable {w : ResolutionWalk Tracked} {o : Outlook} {i : NodeId} {n : Node Slot}

theorem Follows.nodes (hw : Follows f root b w) {slots : List Slot}
    (h : ∀ c, some c ∈ slots → Around f root b c o.scope) : Roams f root b (w.nodes o slots) := by
  refine .forM fun s hs => hw.node ?_
  rintro c rfl
  exact h c hs

theorem Follows.children (hw : Follows f root b w)
    (h : ∀ c, some c ∈ n.slots → Around f root b c o.scope) : Roams f root b (w.children o n) := by
  refine .forM fun c hc => hw.node ?_
  rintro _ ⟨⟩
  exact h c (mem_childrenOf.mp hc)

theorem Follows.nodeIf (hw : Follows f root b w) {condition : Bool} {s : Slot}
    (h : ∀ c, s = some c → Around f root b c o.scope) :
    Roams f root b (w.nodeIf condition o s) :=
  .ite (hw.node h) (.pure _)

theorem Follows.function (hw : Follows f root b w) {form : FunctionForm} {ident code : Slot}
    {parameters : List Slot} (hparameters : ∀ c, some c ∈ parameters → Around f root b c o.scope)
    (hcode : ∀ c, code = some c → Around f root b c o.scope) :
    Roams f root b (w.function o form ident parameters code) := by
  have hinside : Roams f root b (do
      parameters.forM (w.pattern o none)
      w.node o .read code) := by
    refine .bind (.forM fun s hs => hw.pattern ?_) fun _ => hw.node hcode
    rintro c rfl
    exact hparameters c hs
  exact .ite (.bind (.modify fun c => c.sameScopes_markDynamic ..) fun _ => hinside) hinside

theorem Follows.resolveNode (hw : Follows f root b w) (hf : f.WellFormed)
    (hb : b.Settled f root) (hroot : f.parent (some root) = none)
    (hn : f.node? (some i) = some n) {t : ScopeId} (hi : Around f root b i t)
    (ho : o.scope = (b.opened[i]?).getD t) {kind : ReferenceKind} :
    Roams f root b (w.resolveNode o kind i n) := by
  have hchild : ∀ c, some c ∈ n.slots → Around f root b c o.scope := by
    intro c hc
    rw [ho]
    exact hi.child hf hn hc
  -- A pattern found where a value is expected is handed to the other answer, as the same node.
  have hagain : n.opensScope = false → ∀ c, some i = some c → Around f root b c o.scope := by
    rintro hkind _ ⟨⟩
    rw [ho, hi.stays hb hroot hn hkind]
    exact hi
  have hslot : ∀ {s c}, s ∈ n.slots → s = some c → Around f root b c o.scope := by
    rintro s c hs rfl
    exact hchild c hs
  unfold ResolutionWalk.resolveNode
  split
  · exact .modify fun c => c.sameScopes_addReference ..
  · refine .bind (hw.pattern fun c => hslot ?_) fun _ => hw.node fun c => hslot ?_ <;>
      simp [Node.slots]
  · refine hw.function (fun c hc => hchild c ?_) fun c => hslot ?_ <;> simp [Node.slots, *]
  · refine .bind (hw.pattern fun c => hslot ?_) fun _ => hw.node fun c => hslot ?_ <;>
      simp [Node.slots]
  · refine hw.nodes fun c hc => hchild c ?_
    exact List.mem_cons_of_mem _ hc
  · refine .bind (hw.nodeIf fun c => hslot ?_) fun _ => hw.node fun c => hslot ?_ <;>
      simp [Node.slots]
  · refine .bind (hw.nodeIf fun c => hslot ?_) fun _ => hw.node fun c => hslot ?_ <;>
      simp [Node.slots]
  · exact hw.pattern (hagain rfl)
  · exact hw.pattern (hagain rfl)
  · exact hw.pattern (hagain rfl)
  · exact hw.pattern (hagain rfl)
  · refine .bind (hw.node fun c => hslot ?_) fun _ => hw.node fun c => hslot ?_ <;>
      simp [Node.slots]
  · exact hw.node fun c => hslot (by simp [Node.slots])
  · exact .pure _
  · exact hw.node fun c => hslot (by simp [Node.slots])
  · refine .bind (hw.nodeIf fun c => hslot ?_) fun _ => hw.node fun c => hslot ?_ <;>
      simp [Node.slots]
  · refine .bind (hw.node fun c => hslot ?_) fun _ => hw.node fun c => hslot ?_ <;>
      simp [Node.slots]
  · exact hw.node fun c => hslot (by simp [Node.slots])
  · refine .bind (hw.node fun c => hslot ?_) fun _ => hw.nodes fun c hc => hchild c ?_
    · simp [Node.slots]
    · exact List.mem_cons_of_mem _ hc
  · refine .bind (hw.node fun c => hslot ?_) fun _ => hw.nodes fun c hc => hchild c ?_
    · simp [Node.slots]
    · exact List.mem_cons_of_mem _ hc
  · exact hw.children hchild

theorem Follows.resolvePattern (hw : Follows f root b w) (hf : f.WellFormed)
    (hb : b.Settled f root) (hroot : f.parent (some root) = none)
    (hn : f.node? (some i) = some n) (hi : Around f root b i o.scope)
    {kind : Option ReferenceKind} : Roams f root b (w.resolvePattern o kind i n) := by
  have hslot : n.opensScope = false → ∀ {s c}, s ∈ n.slots → s = some c →
      Around f root b c o.scope := by
    rintro hkind s c hs rfl
    have hc := hi.child hf hn hs
    rwa [hi.stays hb hroot hn hkind] at hc
  unfold ResolutionWalk.resolvePattern
  split
  · split
    · exact .modify fun c => c.sameScopes_addReference ..
    · exact .modify fun c => c.sameScopes_markDynamic ..
  · exact .forM fun s hs => hw.pattern fun c => hslot rfl hs
  · exact .forM fun s hs => hw.pattern fun c => hslot rfl hs
  · refine .bind (hw.nodeIf fun c => hslot rfl ?_) fun _ => hw.pattern fun c => hslot rfl ?_ <;>
      simp [Node.slots]
  · refine .bind (hw.pattern fun c => hslot rfl ?_) fun _ => hw.node fun c => hslot rfl ?_ <;>
      simp [Node.slots]
  · exact hw.pattern fun c => hslot rfl (by simp [Node.slots])
  · exact .pure _
  · apply hw.node
    rintro _ ⟨⟩
    exact hi

theorem follows_ofDepth (hf : f.WellFormed) (hb : b.Settled f root)
    (hroot : f.parent (some root) = none) (depth : Nat) :
    Follows f root b (ofDepth Trail.resolve f depth) := by
  induction depth with
  | zero => exact ⟨fun _ => .modify fun _ => ⟨rfl, rfl⟩, fun _ => .modify fun _ => ⟨rfl, rfl⟩⟩
  | succ depth ih =>
      constructor
      · intro o kind s hs
        unfold ofDepth
        dsimp only
        split
        · rename_i i n hn
          refine .bind (.visit (hs i rfl)) fun _ => .look fun c hc => ?_
          exact ih.resolveNode hf hb hroot hn (hs i rfl) (by rw [hc.opened])
        · exact .pure _
      · intro o kind s hs
        unfold ofDepth
        dsimp only
        split
        · rename_i i n hn
          exact .bind (.visit (hs i rfl)) fun _ => ih.resolvePattern hf hb hroot hn (hs i rfl)
        · exact .pure _

end ResolutionWalk
end Untangle
