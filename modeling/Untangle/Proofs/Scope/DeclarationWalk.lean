import Untangle.Proofs.Scope.Region

/-!
# The walk that opens scopes

The walk that opens scopes arrives at every node in the scope of its region, and opens one scope
at most for each node. Actions are described by the nodes that their reports start from, the nodes
that they may open scopes for, and what holds of the bindings that they leave.

Each production passes its children the scope of their region, and opens the scope of a node
where the tree says that the node opens one.
-/

namespace Untangle

open Forest Bindings

variable {α β : Type} {f : Forest} {root : NodeId}

/-!
## Bindings in the middle of a walk
-/

structure Bindings.Settled (f : Forest) (root : NodeId) (b : Bindings) : Prop where
  program : 0 < b.scopes.size
  /-- The scope found at a node is one that it opens. -/
  found : ∀ {p x}, b.opened[p]? = some x → (p = root ∧ x = programScope) ∨ b.OpenedBy x p
  known : ∀ {p x}, b.OpenedBy x p → ∃ y, b.opened[p]? = some y ∧ b.OpenedBy y p
  /-- A scope is attached to the one that the walk was in before. -/
  attached : ∀ {p x}, b.OpenedBy x p →
    f.Opener p ∧ ∃ s, (b.scope? x).bind Scope.parent = some s ∧ Arrives f root b p s

theorem Bindings.SameScopes.settled {b b' : Bindings} (h : b.SameScopes b')
    (hb : b.Settled f root) : b'.Settled f root := by
  refine ⟨h.scopes ▸ hb.program, ?_, ?_, ?_⟩
  · intro p x
    rw [h.opened, h.openedBy]
    exact hb.found
  · intro p x
    simp only [h.opened, h.openedBy]
    exact hb.known
  · intro p x
    rw [h.openedBy, h.scope?]
    intro hx
    rcases hb.attached hx with ⟨hp, s, hs, harrives⟩
    exact ⟨hp, s, hs, harrives.extend h.extends⟩

/-- What happens between two moments of a walk. The reports are `new` and start from `heads`; the
scopes are `more` and belong to `opens`. -/
structure Progress (f : Forest) (root : NodeId) (heads opens : List NodeId) (t t' : Trail)
    (b b' : Bindings) (new : List Arrival) (more : List Scope) : Prop where
  declared : t'.declared = new ++ t.declared
  resolved : t'.resolved = t.resolved
  scopes : b'.scopes.toList = b.scopes.toList ++ more
  settled : b'.Settled f root
  once : (more.filterMap Scope.node).Subperm opens
  arrives : ∀ a ∈ new, Arrives f root b' a.2 a.1
  /-- The subject of a `switch` that opens no scope is one of the heads. -/
  subjects : ∀ a ∈ new, ∀ p, f.Subject a.2 p → a.2 ∈ heads ∨ ∃ x, b'.OpenedBy x p

theorem Progress.extend {heads opens : List NodeId} {t t' : Trail} {b b' : Bindings}
    {new : List Arrival} {more : List Scope} (h : Progress f root heads opens t t' b b' new more) :
    b.Extends b' :=
  ⟨more, h.scopes.symm⟩

def Declares (f : Forest) (root : NodeId) (b : Bindings) (heads opens : List NodeId)
    (act : Tracked α) (post : α → Bindings → Prop) : Prop :=
  b.Settled f root → ∀ ⦃t⦄, ∃ new more,
    Progress f root heads opens t ((act.run t).run b).1.2 b ((act.run t).run b).2 new more ∧
      post ((act.run t).run b).1.1 ((act.run t).run b).2

/-- An action of which only the reports and the scopes matter. -/
abbrev DeclaresOnly (f : Forest) (root : NodeId) (b : Bindings) (heads opens : List NodeId)
    (act : Tracked α) : Prop :=
  Declares f root b heads opens act fun _ _ => True

namespace Declares

variable {b : Bindings} {heads opens : List NodeId} {act : Tracked α} {k : α → Tracked β}
  {post : α → Bindings → Prop} {result : β → Bindings → Prop}

theorem pure {a : α} (h : post a b) : Declares f root b [] [] (pure a) post := by
  intro hb t
  exact ⟨[], [], ⟨rfl, rfl, (List.append_nil _).symm, hb, List.nil_subperm, by simp, by simp⟩, h⟩

theorem skip {a : α} : DeclaresOnly f root b heads opens (Pure.pure a) := by
  intro hb t
  exact ⟨[], [], ⟨rfl, rfl, (List.append_nil _).symm, hb, List.nil_subperm, by simp, by simp⟩,
    trivial⟩

theorem bind {heads' opens' : List NodeId} (hact : Declares f root b heads opens act post)
    (hk : ∀ a b', b.Extends b' → post a b' → Declares f root b' heads' opens' (k a) result) :
    Declares f root b (heads ++ heads') (opens ++ opens') (act >>= k) result := by
  intro hb t
  rcases @hact hb t with ⟨new, more, hfirst, hpost⟩
  obtain ⟨new', more', hthen, hresult⟩ :=
    @hk _ _ hfirst.extend hpost hfirst.settled ((act.run t).run b).1.2
  refine ⟨new' ++ new, more ++ more', ⟨?_, ?_, ?_, hthen.settled, ?_, ?_, ?_⟩, hresult⟩
  · exact hthen.declared.trans (by rw [hfirst.declared, List.append_assoc])
  · exact hthen.resolved.trans hfirst.resolved
  · exact hthen.scopes.trans (by rw [hfirst.scopes, List.append_assoc])
  · rw [List.filterMap_append]
    exact hfirst.once.append hthen.once
  · intro a ha
    rcases List.mem_append.mp ha with ha | ha
    · exact hthen.arrives a ha
    · exact (hfirst.arrives a ha).extend hthen.extend
  · intro a ha p hp
    rcases List.mem_append.mp ha with ha | ha
    · exact (hthen.subjects a ha p hp).imp_left (List.mem_append_right _)
    · apply (hfirst.subjects a ha p hp).imp (List.mem_append_left _)
      exact fun ⟨x, hx⟩ => ⟨x, hthen.extend.openedBy hx⟩

theorem mono {post' : α → Bindings → Prop} {opens' : List NodeId}
    (h : Declares f root b heads opens act post) (hopens : opens.Subperm opens')
    (hpost : ∀ a b', b.Extends b' → post a b' → post' a b') :
    Declares f root b heads opens' act post' := by
  intro hb t
  rcases @h hb t with ⟨new, more, hprogress, ha⟩
  exact ⟨new, more, { hprogress with once := hprogress.once.trans hopens },
    hpost _ _ hprogress.extend ha⟩

/-- Heads are forgotten once none of them is the subject of an unopened `switch`. -/
theorem discharge (h : Declares f root b heads opens act post)
    (hheads : ∀ a b', b.Extends b' → post a b' → ∀ c ∈ heads, ∀ p, f.Subject c p →
      ∃ x, b'.OpenedBy x p) :
    Declares f root b [] opens act post := by
  intro hb t
  rcases @h hb t with ⟨new, more, hprogress, ha⟩
  refine ⟨new, more, { hprogress with subjects := ?_ }, ha⟩
  intro a hmem p hp
  rcases hprogress.subjects a hmem p hp with hhead | hx
  · exact Or.inr (hheads _ _ hprogress.extend ha a.2 hhead p hp)
  · exact Or.inr hx

/-- The subtrees of the children of a node that is no `switch`. -/
theorem below {opens' : List NodeId} (h : DeclaresOnly f root b heads opens act)
    (hheads : ∀ c ∈ heads, ∀ p, ¬ f.Subject c p) (hopens : opens.Subperm opens') :
    DeclaresOnly f root b [] opens' act :=
  (h.discharge fun _ _ _ _ c hc p hp => absurd hp (hheads c hc p)).mono hopens
    fun _ _ _ _ => trivial

/-!
### Elementary actions
-/

theorem visit {i : NodeId} {s : ScopeId} (hi : Arrives f root b i s) :
    DeclaresOnly f root b [i] [] (Trail.declare s i) := by
  intro hb t
  refine ⟨[(s, i)], [], ⟨rfl, rfl, (List.append_nil _).symm, hb, List.nil_subperm, ?_, ?_⟩,
    trivial⟩
  · intro a ha
    rw [List.mem_singleton.mp ha]
    exact hi
  · intro a ha p _
    rw [List.mem_singleton.mp ha]
    exact Or.inl (List.mem_singleton_self i)

/-- A change that concerns no scope. -/
theorem modify {change : Bindings → Bindings} (h : b.SameScopes (change b)) :
    DeclaresOnly f root b heads opens (modifyThe Bindings change) := by
  intro hb t
  refine ⟨[], [], ⟨rfl, rfl, ?_, h.settled hb, List.nil_subperm, by simp, by simp⟩, trivial⟩
  rw [List.append_nil]
  exact congrArg _ h.scopes

theorem settled_openScope {kind : ScopeKind} {i : NodeId} {parent : ScopeId}
    (hb : b.Settled f root) (hi : f.Opener i) (harrives : Arrives f root b i parent) :
    (b.openScope kind (some i) (some parent)).2.Settled f root := by
  have hextend := b.extends_openScope kind (some i) (some parent)
  have hnew : (b.openScope kind (some i) (some parent)).2.OpenedBy b.scopes.size i :=
    ⟨hb.program, by rw [scope?_openScope, if_pos rfl]; rfl⟩
  have hold : ∀ {p x}, (b.openScope kind (some i) (some parent)).2.OpenedBy x p →
      (x = b.scopes.size ∧ p = i) ∨ b.OpenedBy x p := by
    intro p x hx
    by_cases hsize : x = b.scopes.size
    · refine Or.inl ⟨hsize, ?_⟩
      have hnode := hx.2
      rw [scope?_openScope, if_pos hsize] at hnode
      exact (Option.some.inj hnode).symm
    · refine Or.inr ⟨hx.1, ?_⟩
      have hnode := hx.2
      rwa [scope?_openScope, if_neg hsize] at hnode
  refine ⟨?_, ?_, ?_, ?_⟩
  · simp [Bindings.openScope]
  · intro p x hx
    rw [opened_openScope] at hx
    split at hx
    · obtain rfl := Option.some.inj hx
      exact Or.inr (‹i = p› ▸ hnew)
    · exact (hb.found hx).imp_right hextend.openedBy
  · intro p x hx
    rw [opened_openScope]
    by_cases hp : i = p
    · exact ⟨_, if_pos hp, hp ▸ hnew⟩
    · rcases hold hx with ⟨_, rfl⟩ | hx
      · exact absurd rfl hp
      · rcases hb.known hx with ⟨y, hy, hopened⟩
        exact ⟨y, by rw [if_neg hp]; exact hy, hextend.openedBy hopened⟩
  · intro p x hx
    rcases hold hx with ⟨rfl, rfl⟩ | hx
    · refine ⟨hi, parent, ?_, harrives.extend hextend⟩
      rw [scope?_openScope, if_pos rfl]
      rfl
    · rcases hb.attached hx with ⟨hp, s, hs, hparent⟩
      rw [Option.bind_eq_some_iff] at hs
      rcases hs with ⟨scope, hscope, hs⟩
      exact ⟨hp, s, by rw [hextend.scope? hscope]; exact hs, hparent.extend hextend⟩

theorem openScope {kind : ScopeKind} {i : NodeId} {parent : ScopeId} (hi : f.Opener i)
    (harrives : Arrives f root b i parent) :
    Declares f root b [] [i] (DeclarationWalk.openScope kind i parent)
      fun x b' => b'.OpenedBy x i := by
  intro hb t
  refine ⟨[], [⟨kind, some i, some parent⟩],
    ⟨rfl, rfl, ?_, settled_openScope hb hi harrives, List.Subperm.refl _, by simp, by simp⟩, ?_⟩
  · exact (Array.toList_push ..)
  · refine ⟨hb.program, ?_⟩
    have hscope := @scope?_openScope b b.scopes.size kind (some i) (some parent)
    rw [if_pos rfl] at hscope
    exact congrArg (·.bind Scope.node) hscope

theorem get : DeclaresOnly f root b [] [] (getThe Bindings) :=
  fun hb _ => ⟨[], [], ⟨rfl, rfl, (List.append_nil _).symm, hb, List.nil_subperm, by simp,
    by simp⟩, trivial⟩

theorem ite {c : Prop} [Decidable c] {other : Tracked α}
    (h : Declares f root b heads opens act post)
    (hother : Declares f root b heads opens other post) :
    Declares f root b heads opens (if c then act else other) post := by
  split
  · exact h
  · exact hother

theorem forM {γ : Type} {items : List γ} {act : γ → Tracked PUnit} {heads opens : γ → List NodeId}
    (h : ∀ a ∈ items, ∀ b', b.Extends b' → DeclaresOnly f root b' (heads a) (opens a) (act a)) :
    DeclaresOnly f root b (items.flatMap heads) (items.flatMap opens) (items.forM act) := by
  induction items generalizing b with
  | nil => exact pure trivial
  | cons a items ih =>
      refine bind (h a List.mem_cons_self b (.refl b)) fun _ b' hb' _ => ih fun c hc b'' hb'' => ?_
      exact h c (List.mem_cons_of_mem a hc) b'' (hb'.trans hb'')

theorem each {γ : Type} {items : List γ} {act : γ → Tracked PUnit} {opens : γ → List NodeId}
    (h : ∀ a ∈ items, ∀ b', b.Extends b' → DeclaresOnly f root b' [] (opens a) (act a)) :
    DeclaresOnly f root b [] (items.flatMap opens) (items.forM act) :=
  (forM h).discharge fun _ _ _ _ c hc => by simp at hc

end Declares

end Untangle

namespace Untangle

open Forest Bindings

variable {f : Forest} {root : NodeId}

namespace DeclarationWalk

/-- The walk of the next deeper level keeps to the regions of the tree. -/
structure Follows (f : Forest) (root : NodeId) (w : DeclarationWalk Tracked) : Prop where
  node : ∀ {b scope s},
    (∀ c, s = some c → Arrives f root b c scope ∧ ∀ p, ¬ f.SharesScope c p) →
      DeclaresOnly f root b s.toList (f.preorder s) (w.node scope s)
  pattern : ∀ {b names declaration s},
    (∀ c, s = some c → Arrives f root b c names.expression) →
      DeclaresOnly f root b s.toList (f.preorder s) (w.pattern names declaration s)

variable {w : DeclarationWalk Tracked} {b : Bindings} {i : NodeId} {n : Node Slot}
  {scope x : ScopeId}

theorem declares_declareName {kind : BindingKind} {nameNode : Slot} {declaration : NodeId} :
    DeclaresOnly f root b [] [] (declareName f scope kind nameNode declaration) := by
  unfold declareName
  split
  · exact .modify (sameScopes_declare ..)
  · exact .pure trivial

/-- Slots of a node that is no function and no handler, walked one after the other. -/
theorem Follows.nodes (hw : Follows f root w) (hf : f.WellFormed)
    (hn : f.node? (some i) = some n) (hshares : n.sharesScope = false) {slots : List Slot}
    (hslots : ∀ s ∈ slots, s ∈ n.slots)
    (harrives : ∀ c, some c ∈ slots → Arrives f root b c scope) :
    DeclaresOnly f root b (slots.flatMap Option.toList) (slots.flatMap f.preorder)
      (w.nodes scope slots) := by
  refine .forM fun s hs b' hb' => hw.node ?_
  rintro c rfl
  exact ⟨(harrives c hs).extend hb', hf.not_sharesScope_of_slot hn hshares (hslots _ hs)⟩

/-- The children of a node of any other kind than a function, a handler or a `switch`. -/
theorem Follows.children (hw : Follows f root w) (hf : f.WellFormed)
    (hn : f.node? (some i) = some n) (hshares : n.sharesScope = false)
    (hsubject : n.subject = none) (harrives : ∀ c, some c ∈ n.slots → Arrives f root b c scope) :
    DeclaresOnly f root b [] (n.slots.flatMap f.preorder) (w.children scope n) := by
  have hitems : DeclaresOnly f root b ((childrenOf n).flatMap fun c => [c])
      ((childrenOf n).flatMap fun c => f.preorder (some c)) (w.children scope n) := by
    refine .forM fun c hc b' hb' => @Follows.node _ _ _ hw b' scope (some c) ?_
    rintro _ ⟨⟩
    have hslot := mem_childrenOf.mp hc
    exact ⟨(harrives c hslot).extend hb', hf.not_sharesScope_of_slot hn hshares hslot⟩
  have hopens : n.slots.flatMap f.preorder = (childrenOf n).flatMap fun c => f.preorder (some c) :=
    f.flatMap_preorderOnto f.size n.slots
  rw [hopens]
  refine hitems.below ?_ (.refl _)
  intro c hc
  have hslot := mem_childrenOf.mp (by simpa using hc)
  exact hf.not_subject_of_slot hn hsubject hslot

/-- The statements of a body or handler block, in the scope that the block shares. -/
theorem Follows.sharedBlock (hw : Follows f root w) (hf : f.WellFormed) {p : NodeId}
    {statements : List Slot} (hopener : f.Opener p) (hx : b.OpenedBy x p)
    (hi : f.SharesScope i p) (hblock : f.node? (some i) = some (.body .block statements)) :
    DeclaresOnly f root b [] (f.preorder (some i)) (w.nodes x statements) := by
  refine (hw.nodes hf hblock rfl (fun _ => id)
    fun c hc => .inShared hf hopener hx hi hblock hc).below ?_ ?_
  · intro c hc
    exact hf.not_subject_of_slot hblock rfl (by simpa using hc)
  · rw [hf.preorder_eq hblock]
    exact (List.sublist_cons_self ..).subperm

theorem Follows.functionBody (hw : Follows f root w) (hf : f.WellFormed) {form : FunctionForm}
    {ident code : Slot} {parameters : List Slot} {isAsync isGenerator : Bool}
    (hn : f.node? (some i) = some (.function form ident parameters code isAsync isGenerator))
    (hopener : f.Opener i) (hx : b.OpenedBy x i) :
    DeclaresOnly f root b [] (parameters.flatMap f.preorder ++ f.preorder code)
      (w.functionBody f x parameters code) := by
  have hparameters : DeclaresOnly f root b [] (parameters.flatMap f.preorder)
      (parameters.forM (w.pattern ⟨x, x, .parameter⟩ none)) := by
    have hwalked : DeclaresOnly f root b (parameters.flatMap Option.toList)
        (parameters.flatMap f.preorder) (parameters.forM (w.pattern ⟨x, x, .parameter⟩ none)) := by
      refine .forM fun s hs b' hb' => hw.pattern ?_
      rintro c rfl
      exact (Arrives.inChild hf hopener hx hn rfl (by simp [Node.slots, hs])).extend hb'
    refine hwalked.below ?_ (.refl _)
    intro c hc
    have hslot : some c ∈ parameters := by simpa using hc
    exact hf.not_subject_of_slot hn rfl (by simp [Node.slots, hslot])
  refine .bind hparameters fun _ b' hb' _ => ?_
  have hx' := hb'.openedBy hx
  split
  · cases code with
    | none => cases ‹f.node? none = _›
    | some c => exact hw.sharedBlock hf hopener hx' (.body hn ‹_›) ‹_›
  · rename_i m hother hm
    refine (hw.node ?_).below ?_ (.refl _)
    · rintro c rfl
      refine ⟨.inChild hf hopener hx' hn rfl (by simp [Node.slots]), ?_⟩
      intro p hshares
      obtain rfl := Link.unique (hf.link_of_slot hn (by simp [Node.slots]))
        (hf.link_of_sharesScope hshares)
      cases hshares with
      | body _ hblock => exact hother _ (Option.some.inj (hm.symm.trans hblock))
      | handler hcatch => cases hn.symm.trans hcatch
    · intro c hc
      exact hf.not_subject_of_slot hn rfl (by simp [Node.slots, Option.mem_toList.mp hc])
  · exact .skip

theorem Follows.function (hw : Follows f root w) (hf : f.WellFormed) {form : FunctionForm}
    {ident code : Slot} {parameters : List Slot} {isAsync isGenerator : Bool}
    (hn : f.node? (some i) = some (.function form ident parameters code isAsync isGenerator))
    (hopener : f.Opener i) (harrives : Arrives f root b i scope) :
    DeclaresOnly f root b []
      (i :: (Node.function form ident parameters code isAsync isGenerator).slots.flatMap f.preorder)
      (w.function f scope i form ident parameters code) := by
  have hopen : ∀ b', b.Extends b' → DeclaresOnly f root b' []
      ([i] ++ (parameters.flatMap f.preorder ++ f.preorder code)) (do
        let inside ← openScope .function i scope
        if form == .expression then declareName f inside .functionName ident i
        w.functionBody f inside parameters code) := by
    intro b' hb'
    refine .bind (.openScope hopener (harrives.extend hb')) fun x b'' _ hx => .ite ?_ ?_
    · refine .bind declares_declareName fun _ b₃ hb₃ _ => ?_
      exact hw.functionBody hf hn hopener (hb₃.openedBy hx)
    · exact hw.functionBody hf hn hopener hx
  have hall : DeclaresOnly f root b []
      ([i] ++ (parameters.flatMap f.preorder ++ f.preorder code))
      (w.function f scope i form ident parameters code) :=
    .ite (.bind declares_declareName fun _ b' hb' _ => hopen b' hb') (hopen b (.refl b))
  refine hall.mono ?_ fun _ _ _ _ => trivial
  have hsub := (List.sublist_append_right (f.preorder ident)
    (parameters.flatMap f.preorder ++ f.preorder code)).cons_cons i
  simpa [Node.slots] using hsub.subperm

/-- The walk passes over the declarators to the names and values in them. -/
theorem Follows.variableStatement (hw : Follows f root w) (hf : f.WellFormed)
    {kind : VariableKind} {declarators : List Slot}
    (hn : f.node? (some i) = some (.variableStatement kind declarators))
    (harrives : Arrives f root b i scope) :
    DeclaresOnly f root b [] (declarators.flatMap f.preorder)
      (w.variableStatement f scope kind declarators) := by
  refine .bind .get fun bindings b' hb' _ => ?_
  extract_lets target names
  refine .each fun s hs b'' hb'' => ?_
  split
  · rename_i k name initializer hk
    have hdeclarator : Arrives f root b'' k scope :=
      ((harrives.extend hb').extend hb'').child hf hn rfl hs
    have hwalked : DeclaresOnly f root b'' (name.toList ++ initializer.toList)
        (f.preorder name ++ f.preorder initializer) (do
          w.pattern names (some k) name
          w.node scope initializer) := by
      refine .bind (hw.pattern ?_) fun _ b₃ hb₃ _ => hw.node ?_
      · rintro c rfl
        exact hdeclarator.child hf hk rfl (by simp [Node.slots])
      · rintro c rfl
        exact ⟨(hdeclarator.extend hb₃).child hf hk rfl (by simp [Node.slots]),
          hf.not_sharesScope_of_slot hk rfl
            (by simp [Node.slots])⟩
    refine hwalked.below ?_ ?_
    · intro c hc
      exact hf.not_subject_of_slot hk rfl
        (by simpa [Node.slots, eq_comm] using hc)
    · rw [hf.preorder_eq hk]
      simpa [Node.slots] using (List.sublist_cons_self k _).subperm
  · exact .skip

theorem Follows.classLike (hw : Follows f root w) (hf : f.WellFormed) {form : ClassForm}
    {ident heritage : Slot} {members : List Slot}
    (hn : f.node? (some i) = some (.classLike form ident heritage members))
    (halone : ∀ p, ¬ f.SharesScope i p) (harrives : Arrives f root b i scope) :
    DeclaresOnly f root b []
      (i :: (Node.classLike form ident heritage members).slots.flatMap f.preorder)
      (w.classLike f scope i form ident (.classLike form ident heritage members)) := by
  have hinside : ∀ {b' inside}, (∀ c, some c ∈ (Node.classLike form ident heritage members).slots →
        Arrives f root b' c inside) →
      DeclaresOnly f root b' []
        ([] ++ (Node.classLike form ident heritage members).slots.flatMap f.preorder) (do
          declareName f inside .«class» ident i
          w.children inside (.classLike form ident heritage members)) := by
    intro b' inside hchildren
    refine .bind declares_declareName fun _ b'' hb'' _ => ?_
    exact hw.children hf hn rfl rfl fun c hc => (hchildren c hc).extend hb''
  unfold DeclarationWalk.classLike
  cases form with
  | declaration =>
      refine (hinside fun c hc => harrives.child hf hn rfl hc).mono ?_ fun _ _ _ _ => trivial
      exact (List.sublist_cons_self ..).subperm
  | expression =>
      have hopener : f.Opener i := ⟨⟨_, hn, rfl⟩, halone⟩
      refine .bind (.openScope hopener harrives) fun x b' _ hx => hinside fun c hc => ?_
      exact .inChild hf hopener hx hn rfl hc

theorem Follows.handler (hw : Follows f root w) (hf : f.WellFormed) {parameter block : Slot}
    (hn : f.node? (some i) = some (.catchClause parameter block))
    (halone : ∀ p, ¬ f.SharesScope i p) (harrives : Arrives f root b i scope) :
    DeclaresOnly f root b [] (i :: (Node.catchClause parameter block).slots.flatMap f.preorder)
      (w.handler f scope i parameter block) := by
  have hopener : f.Opener i := ⟨⟨_, hn, rfl⟩, halone⟩
  have hall : DeclaresOnly f root b [] ([i] ++ (f.preorder parameter ++ f.preorder block))
      (w.handler f scope i parameter block) := by
    refine .bind (.openScope hopener harrives) fun x b' _ hx => ?_
    have hparameter : DeclaresOnly f root b' [] (f.preorder parameter)
        (w.pattern ⟨x, x, .catchParameter⟩ parameter parameter) := by
      refine (hw.pattern ?_).below ?_ (.refl _)
      · rintro c rfl
        exact .inChild hf hopener hx hn rfl (by simp [Node.slots])
      · intro c hc
        exact hf.not_subject_of_slot hn rfl
          (by simp [Node.slots, Option.mem_toList.mp hc])
    refine .bind hparameter fun _ b'' hb'' _ => ?_
    split
    · cases block with
      | none => cases ‹f.node? none = _›
      | some c => exact hw.sharedBlock hf hopener (hb''.openedBy hx) (.handler hn) ‹_›
    · exact .skip
  refine hall.mono ?_ fun _ _ _ _ => trivial
  simpa [Node.slots] using List.Subperm.refl _

/-- The subject of a `switch` is walked before its scope is opened. -/
theorem Follows.switch (hw : Follows f root w) (hf : f.WellFormed) {subject : Slot}
    {clauses : List Slot} (hn : f.node? (some i) = some (.switch subject clauses))
    (halone : ∀ p, ¬ f.SharesScope i p) (harrives : Arrives f root b i scope) :
    DeclaresOnly f root b [] (i :: (Node.switch subject clauses).slots.flatMap f.preorder) (do
      w.node scope subject
      let inside ← openScope .block i scope
      w.nodes inside clauses) := by
  have hopener : f.Opener i := ⟨⟨_, hn, rfl⟩, halone⟩
  have hunique : ∀ c p, some c ∈ (Node.switch subject clauses).slots → f.Subject c p → p = i :=
    fun c p hc hp => Link.unique (hf.link_of_subject hp) (hf.link_of_slot hn hc)
  have hall : Declares f root b (subject.toList ++ ([] ++ clauses.flatMap Option.toList))
      (f.preorder subject ++ ([i] ++ clauses.flatMap f.preorder)) (do
        w.node scope subject
        let inside ← openScope .block i scope
        w.nodes inside clauses) fun _ b' => ∃ x, b'.OpenedBy x i := by
    refine .bind (hw.node ?_) fun _ b' hb' _ => ?_
    · rintro c rfl
      exact ⟨.subject ⟨clauses, hn⟩ harrives,
        hf.not_sharesScope_of_slot hn rfl (by simp [Node.slots])⟩
    · refine .bind (.openScope hopener (harrives.extend hb')) fun x b'' hb'' hx => ?_
      refine (hw.nodes hf hn rfl (fun s hs => List.mem_cons_of_mem subject hs) ?_).mono (.refl _)
        fun _ b₃ hb₃ _ => ⟨x, hb₃.openedBy hx⟩
      intro c hc
      refine .inside (hf.link_of_slot hn (by simp [Node.slots, hc])) ?_ hopener hx
      -- A clause is not the subject as well, since no node is in two slots.
      rintro ⟨clauses', hswitch⟩
      rcases Node.switch.inj (Option.some.inj (hn.symm.trans hswitch)) with ⟨rfl, _⟩
      have hnodup := hf.nodup i
      rw [children_of_node? hn] at hnodup
      simp [childrenOf, Node.slots, hc] at hnodup
  refine (hall.discharge fun _ b' _ hx c hc p hp => ?_).mono ?_ fun _ _ _ _ => trivial
  · obtain rfl := hunique c p (by simpa [Node.slots, eq_comm] using hc) hp
    exact hx
  · simpa [Node.slots] using
      (@List.perm_middle _ i (f.preorder subject) _).subperm

theorem Follows.body (hw : Follows f root w) (hf : f.WellFormed) {form : BodyForm}
    {statements : List Slot} (hn : f.node? (some i) = some (.body form statements))
    (hopens : (Node.body form statements).opensScope) (halone : ∀ p, ¬ f.SharesScope i p)
    (harrives : Arrives f root b i scope) (kind : ScopeKind) :
    DeclaresOnly f root b [] (i :: statements.flatMap f.preorder) (do
      let inside ← openScope kind i scope
      w.nodes inside statements) := by
  have hopener : f.Opener i := ⟨⟨_, hn, hopens⟩, halone⟩
  refine .bind (.openScope hopener harrives) fun x b' _ hx => ?_
  refine (hw.nodes hf hn rfl (fun _ => id)
    fun c hc => .inChild hf hopener hx hn rfl hc).below ?_ (.refl _)
  intro c hc
  exact hf.not_subject_of_slot hn rfl (by simpa using hc)

/-- A node that opens a scope for all of its children. -/
theorem Follows.scoped (hw : Follows f root w) (hf : f.WellFormed)
    (hn : f.node? (some i) = some n) (hopens : n.opensScope) (hshares : n.sharesScope = false)
    (hsubject : n.subject = none) (halone : ∀ p, ¬ f.SharesScope i p)
    (harrives : Arrives f root b i scope) (kind : ScopeKind) :
    DeclaresOnly f root b [] (i :: n.slots.flatMap f.preorder) (do
      let inside ← openScope kind i scope
      w.children inside n) := by
  have hopener : f.Opener i := ⟨⟨n, hn, hopens⟩, halone⟩
  refine .bind (.openScope hopener harrives) fun x b' _ hx => ?_
  exact hw.children hf hn hshares hsubject fun c hc => .inChild hf hopener hx hn hsubject hc

/-- A node that opens no scope. -/
theorem Follows.plain (hw : Follows f root w) (hf : f.WellFormed)
    (hn : f.node? (some i) = some n) (hopens : n.opensScope = false)
    (harrives : Arrives f root b i scope) :
    DeclaresOnly f root b [] (i :: n.slots.flatMap f.preorder) (w.children scope n) := by
  rcases Node.kinds_of_opensScope hopens with ⟨hshares, hsubject⟩
  exact (hw.children hf hn hshares hsubject fun c hc =>
    harrives.child hf hn hopens hc).mono (List.sublist_cons_self ..).subperm fun _ _ _ _ => trivial

/-!
## One level
-/

theorem Follows.declareNode (hw : Follows f root w) (hf : f.WellFormed)
    (hn : f.node? (some i) = some n) (halone : ∀ p, ¬ f.SharesScope i p)
    (harrives : Arrives f root b i scope) :
    DeclaresOnly f root b [] (i :: n.slots.flatMap f.preorder) (w.declareNode f scope i n) := by
  cases n with
  | function form ident parameters code isAsync isGenerator =>
      exact hw.function hf hn ⟨⟨_, hn, rfl⟩, halone⟩ harrives
  | variableStatement kind declarators =>
      exact (hw.variableStatement hf hn harrives).mono (List.sublist_cons_self ..).subperm
        fun _ _ _ _ => trivial
  | classLike form ident heritage members => exact hw.classLike hf hn halone harrives
  | body form statements =>
      cases form with
      | program => exact hw.plain hf hn rfl harrives
      | block => exact hw.body hf hn rfl halone harrives .block
      | staticBlock => exact hw.body hf hn rfl halone harrives .function
  | forLoop initializer condition increment statement =>
      exact hw.scoped hf hn rfl rfl rfl halone harrives .block
  | iteration form target subject statement isAwait =>
      exact hw.scoped hf hn rfl rfl rfl halone harrives .block
  | switch subject clauses => exact hw.switch hf hn halone harrives
  | catchClause parameter block => exact hw.handler hf hn halone harrives
  | _ => exact hw.plain hf hn rfl harrives

section Patterns

variable {names : PatternScope} {declaration : Option NodeId} {s : Slot}

theorem Follows.patternIn (hw : Follows f root w) (hf : f.WellFormed)
    (hn : f.node? (some i) = some n) (hopens : n.opensScope = false)
    (harrives : Arrives f root b i names.expression) (hs : s ∈ n.slots) :
    DeclaresOnly f root b [] (f.preorder s) (w.pattern names declaration s) := by
  rcases Node.kinds_of_opensScope hopens with ⟨_, hsubject⟩
  refine (hw.pattern ?_).below ?_ (.refl _)
  · rintro c rfl
    exact harrives.child hf hn hopens hs
  · intro c hc
    obtain rfl := Option.mem_toList.mp hc
    exact hf.not_subject_of_slot hn hsubject hs

theorem Follows.nodeIn (hw : Follows f root w) (hf : f.WellFormed)
    (hn : f.node? (some i) = some n) (hopens : n.opensScope = false)
    (harrives : Arrives f root b i scope) (hs : s ∈ n.slots) :
    DeclaresOnly f root b [] (f.preorder s) (w.node scope s) := by
  rcases Node.kinds_of_opensScope hopens with ⟨hshares, hsubject⟩
  refine (hw.node ?_).below ?_ (.refl _)
  · rintro c rfl
    exact ⟨harrives.child hf hn hopens hs, hf.not_sharesScope_of_slot hn hshares hs⟩
  · intro c hc
    obtain rfl := Option.mem_toList.mp hc
    exact hf.not_subject_of_slot hn hsubject hs

theorem Follows.declarePattern (hw : Follows f root w) (hf : f.WellFormed)
    (hn : f.node? (some i) = some n) (harrives : Arrives f root b i names.expression) :
    DeclaresOnly f root b [] (n.slots.flatMap f.preorder)
      (w.declarePattern names declaration i n) := by
  unfold DeclarationWalk.declarePattern
  split
  · exact .modify (sameScopes_declare ..)
  · exact .each fun s hs b' hb' => hw.patternIn hf hn rfl (harrives.extend hb') hs
  · exact .each fun s hs b' hb' => hw.patternIn hf hn rfl (harrives.extend hb') hs
  · rename_i kind key value computed
    simp only [Node.slots, List.flatMap_cons, List.flatMap_nil, List.append_nil]
    have hkey : DeclaresOnly f root b [] (f.preorder key) (w.node names.expression key) :=
      hw.nodeIn hf hn rfl harrives (by simp [Node.slots])
    refine .ite (.bind hkey fun _ b' hb' _ => ?_) ?_
    · exact hw.patternIn hf hn rfl (harrives.extend hb') (by simp [Node.slots])
    · exact (hw.patternIn hf hn rfl harrives (by simp [Node.slots])).mono
        (List.sublist_append_right ..).subperm fun _ _ _ _ => trivial
  · simp only [Node.slots, List.flatMap_cons, List.flatMap_nil, List.append_nil]
    refine .bind (hw.patternIn hf hn rfl harrives (by simp [Node.slots])) fun _ b' hb' _ => ?_
    exact hw.nodeIn hf hn rfl (harrives.extend hb') (by simp [Node.slots])
  · simpa [Node.slots] using hw.patternIn hf hn rfl harrives (by simp [Node.slots])
  · exact .skip

end Patterns

theorem follows_ofDepth (hf : f.WellFormed) (depth : Nat) :
    Follows f root (ofDepth Trail.declare f depth) := by
  induction depth with
  | zero =>
      exact ⟨fun _ => .modify ⟨rfl, rfl⟩, fun _ => .modify ⟨rfl, rfl⟩⟩
  | succ depth ih =>
      constructor
      · intro b scope s hs
        unfold ofDepth
        dsimp only
        split
        · rename_i i n hn
          rcases hs i rfl with ⟨harrives, halone⟩
          rw [hf.preorder_eq hn]
          exact .bind (.visit harrives) fun _ b' hb' _ =>
            ih.declareNode hf hn halone (harrives.extend hb')
        · exact .skip
      · intro b names declaration s hs
        unfold ofDepth
        dsimp only
        split
        · rename_i i n hn
          have harrives := hs i rfl
          rw [hf.preorder_eq hn]
          refine .bind (.visit harrives) fun _ b' hb' _ => ?_
          exact (ih.declarePattern hf hn (harrives.extend hb')).mono
            (List.sublist_cons_self ..).subperm fun _ _ _ _ => trivial
        · exact .skip

end DeclarationWalk
end Untangle
