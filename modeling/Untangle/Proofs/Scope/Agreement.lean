import Untangle.Proofs.Grammar.Programs
import Untangle.Proofs.Scope.ResolutionWalk

/-!
# Where the two walks agree

Both walks are in the same scope at every node, except inside the subject of a `switch`: names are
declared there in the scope around the `switch` and looked up in the scope that the `switch` opens.
-/

namespace Untangle

open Forest Relation

namespace Bindings

variable {f : Forest} {root i p : NodeId} {b b' : Bindings} {s t x : ScopeId}

/-- The nearest scope around the node is that of a `switch` which has the node in its subject. -/
inductive InSubject (f : Forest) (b : Bindings) : NodeId → Prop
  | subject {i p : NodeId} {x : ScopeId} (h : f.Subject i p) (hx : b.OpenedBy x p) :
      InSubject f b i
  | deeper {i p : NodeId} (hlink : f.Link i p) (hp : b.opened[p]? = none) (h : InSubject f b p) :
      InSubject f b i

/-- No node opens two scopes. -/
def OpensOnce (b : Bindings) : Prop :=
  ∀ ⦃p x y⦄, b.OpenedBy x p → b.OpenedBy y p → x = y

/-!
## Two ways to a scope
-/

theorem OpenedBy.unique {q : NodeId} (hp : b.OpenedBy x p) (hq : b.OpenedBy x q) : p = q :=
  Option.some.inj (hp.2.symm.trans hq.2)

theorem Settled.opened_of_openedBy (hb : b.Settled f root) (honce : b.OpensOnce)
    (hx : b.OpenedBy x p) : b.opened[p]? = some x := by
  rcases hb.known hx with ⟨y, hy, hopened⟩
  rw [hy, honce hx hopened]

/-- A scope other than that of the program is opened further up. -/
theorem Arrives.opened_above (hf : f.WellFormed) (h : Arrives f root b i s) :
    s = programScope ∨ ∃ q, b.OpenedBy s q ∧ TransGen f.Link i q := by
  induction h with
  | root => exact Or.inl rfl
  | @inside i p x hlink _ _ hx => exact Or.inr ⟨p, hx, .single hlink⟩
  | around hlink _ _ _ ih => exact ih.imp_right fun ⟨q, hq, hpath⟩ => ⟨q, hq, .head hlink hpath⟩
  | subject hsubject _ ih =>
      exact ih.imp_right fun ⟨q, hq, hpath⟩ =>
        ⟨q, hq, .head (hf.link_of_subject hsubject) hpath⟩

/-- The scope that a node opens is not the one around it. -/
theorem Arrives.ne_of_openedBy (hf : f.WellFormed) (h : Arrives f root b p s)
    (hx : b.OpenedBy x p) : x ≠ s := by
  rintro rfl
  rcases h.opened_above hf with rfl | ⟨q, hq, hpath⟩
  · exact absurd hx.1 (Nat.lt_irrefl _)
  · rw [hx.unique hq] at hpath
    exact hf.acyclic q hpath

theorem Arrives.eq_program (hf : f.WellFormed) (hroot : f.parent (some root) = none)
    (h : Arrives f root b root s) : s = programScope := by
  cases h with
  | root => rfl
  | inside hlink _ _ _ => cases hroot.symm.trans hlink
  | around hlink _ _ _ => cases hroot.symm.trans hlink
  | subject hsubject _ => cases hroot.symm.trans (hf.link_of_subject hsubject)

theorem Around.climb (hroot : f.parent (some root) = none) (hlink : f.Link i p)
    (h : Around f root b i t) :
    b.opened[p]? = some t ∨ b.opened[p]? = none ∧ Around f root b p t := by
  cases h with
  | root => cases hroot.symm.trans hlink
  | inside hlink' hp =>
      obtain rfl := Link.unique hlink hlink'
      exact Or.inl hp
  | outside hlink' hp h =>
      obtain rfl := Link.unique hlink hlink'
      exact Or.inr ⟨hp, h⟩

theorem InSubject.climb (hf : f.WellFormed) (hlink : f.Link i p) (h : b.InSubject f i) :
    (f.Subject i p ∧ ∃ x, b.OpenedBy x p) ∨ b.opened[p]? = none ∧ b.InSubject f p := by
  cases h with
  | subject hsubject hx =>
      obtain rfl := Link.unique hlink (hf.link_of_subject hsubject)
      exact Or.inl ⟨hsubject, _, hx⟩
  | deeper hlink' hp h =>
      obtain rfl := Link.unique hlink hlink'
      exact Or.inr ⟨hp, h⟩

theorem InSubject.ne_root (hf : f.WellFormed) (hroot : f.parent (some root) = none) :
    ¬ b.InSubject f root := by
  intro h
  cases h with
  | subject hsubject _ => cases hroot.symm.trans (hf.link_of_subject hsubject)
  | deeper hlink _ _ => cases hroot.symm.trans hlink

/-- Climbing over a node that opened no scope changes nothing. -/
theorem Arrives.agrees_of_unopened (hf : f.WellFormed) (hroot : f.parent (some root) = none)
    (hb : b.Settled f root) (hnot : ∀ x, ¬ b.OpenedBy x p) (hlink : f.Link i p)
    (hs : Arrives f root b p s) (ht : Around f root b i t)
    (ih : Around f root b p t → (t = s ↔ ¬ b.InSubject f p)) : t = s ↔ ¬ b.InSubject f i := by
  have hclimb : b.InSubject f i → b.opened[p]? = none ∧ b.InSubject f p := fun hin =>
    (hin.climb hf hlink).resolve_left fun ⟨_, x, hx⟩ => hnot x hx
  rcases ht.climb hroot hlink with hfound | ⟨hnone, ht⟩
  · rcases (hb.found hfound).resolve_right (hnot t) with ⟨rfl, rfl⟩
    refine iff_of_true (hs.eq_program hf hroot).symm fun hin => ?_
    cases hfound.symm.trans (hclimb hin).1
  · exact (ih ht).trans (not_congr ⟨.deeper hlink hnone, fun hin => (hclimb hin).2⟩)

theorem Arrives.agrees (hf : f.WellFormed) (hroot : f.parent (some root) = none)
    (hb : b.Settled f root) (honce : b.OpensOnce) (hs : Arrives f root b i s)
    (ht : Around f root b i t) : t = s ↔ ¬ b.InSubject f i := by
  induction hs generalizing t with
  | root => exact iff_of_true (ht.eq_program hroot) (InSubject.ne_root hf hroot)
  | @inside i p x hlink hsubject hp hx =>
      have hopened := hb.opened_of_openedBy honce hx
      refine iff_of_true ?_ fun hin => ?_
      · rcases ht.climb hroot hlink with hy | ⟨hnone, _⟩
        · exact Option.some.inj (hy.symm.trans hopened)
        · cases hnone.symm.trans hopened
      · rcases hin.climb hf hlink with ⟨hsubject', _⟩ | ⟨hnone, _⟩
        · exact hsubject hsubject'
        · cases hnone.symm.trans hopened
  | @around i p s hlink hsubject hp hs ih =>
      have hnot : ∀ x, ¬ b.OpenedBy x p := fun x hx => hp (hb.attached hx).1
      exact agrees_of_unopened hf hroot hb hnot hlink hs ht ih
  | @subject i p s hsubject hs ih =>
      have hlink := hf.link_of_subject hsubject
      by_cases hx : ∃ x, b.OpenedBy x p
      · rcases hx with ⟨x, hx⟩
        have hopened := hb.opened_of_openedBy honce hx
        refine iff_of_false ?_ (not_not_intro (.subject hsubject hx))
        rcases ht.climb hroot hlink with hy | ⟨hnone, _⟩
        · obtain rfl := Option.some.inj (hy.symm.trans hopened)
          exact hs.ne_of_openedBy hf hx
        · cases hnone.symm.trans hopened
      · exact agrees_of_unopened hf hroot hb (not_exists.mp hx) hlink hs ht ih

/-!
## After both walks
-/

/-- The bindings that the walks start with. -/
def start (root : NodeId) : Bindings :=
  (empty.openScope .program (some root) none).2

theorem not_openedBy_start : ¬ (start root).OpenedBy x p := by
  rintro ⟨hpos, hnode⟩
  have hscope : (start root).scope? x = none := by
    rw [start, scope?_openScope, if_neg (show x ≠ empty.scopes.size from Nat.ne_of_gt hpos)]
    exact Array.getElem?_empty
  rw [hscope] at hnode
  cases hnode

theorem settled_start : (start root).Settled f root := by
  refine ⟨Nat.one_pos, ?_, fun hx => absurd hx not_openedBy_start,
    fun hx => absurd hx not_openedBy_start⟩
  intro p x hp
  rw [start, opened_openScope] at hp
  split at hp
  · exact Or.inl ⟨‹root = p›.symm, (Option.some.inj hp).symm⟩
  · exact absurd hp (by simp [empty])

theorem opensOnce_of_progress {heads opens : List NodeId} {trail trail' : Trail}
    {new : List Arrival} {more : List Scope} (hopens : opens.Nodup)
    (h : Progress f root heads opens trail trail' (start root) b new more) : b.OpensOnce := by
  have hnodup : (more.filterMap Scope.node).Nodup := by
    rcases h.once with ⟨_, hperm, hsub⟩
    exact hperm.nodup_iff.mp (hopens.sublist hsub)
  -- The scope of the program comes first and is none of those that nodes open.
  have hmore : ∀ {p x}, b.OpenedBy x p → ∃ k scope, x = k + 1 ∧ more[k]? = some scope ∧
      scope.node = some p := by
    intro p x hx
    rcases Option.bind_eq_some_iff.mp hx.2 with ⟨scope, hscope, hnode⟩
    rcases Nat.exists_eq_add_one.mpr hx.1 with ⟨k, rfl⟩
    refine ⟨k, scope, rfl, ?_, hnode⟩
    rw [scope?, ← Array.getElem?_toList, h.scopes] at hscope
    exact hscope
  have hordered : ∀ {k l : Nat} {scope scope' : Scope} {p : NodeId}, more[k]? = some scope →
      more[l]? = some scope' → scope.node = some p → scope'.node = some p → ¬ k < l := by
    intro k l scope scope' p hk hl hscope hscope' hlt
    rw [List.Nodup, List.pairwise_filterMap, List.pairwise_iff_getElem] at hnodup
    rcases List.getElem?_eq_some_iff.mp hk with ⟨hklen, rfl⟩
    rcases List.getElem?_eq_some_iff.mp hl with ⟨hllen, rfl⟩
    exact hnodup k l hklen hllen hlt p hscope p hscope' rfl
  intro p x y hx hy
  rcases hmore hx with ⟨k, scope, rfl, hk, hscope⟩
  rcases hmore hy with ⟨l, scope', rfl, hl, hscope'⟩
  rcases Nat.lt_trichotomy k l with hlt | rfl | hlt
  · exact absurd hlt (hordered hk hl hscope hscope')
  · rfl
  · exact absurd hlt (hordered hl hk hscope' hscope)

/-- What is known of the reports and the bindings when both walks are over. -/
structure Walked (f : Forest) (root : NodeId) (trail : Trail) (b : Bindings) : Prop where
  settled : b.Settled f root
  once : b.OpensOnce
  arrives : ∀ a ∈ trail.declared, Arrives f root b a.2 a.1
  around : ∀ a ∈ trail.resolved, Around f root b a.2 a.1
  subjects : ∀ a ∈ trail.declared, ∀ p, f.Subject a.2 p → ∃ x, b.OpenedBy x p

theorem Around.congr (h : b.SameScopes b') (hi : Around f root b i t) : Around f root b' i t := by
  induction hi with
  | root => exact .root
  | inside hlink hp => exact .inside hlink (h.opened ▸ hp)
  | outside hlink hp _ ih => exact .outside hlink (h.opened ▸ hp) ih

theorem walked_of_declares {opens : List NodeId} {act act' : Tracked Unit}
    (hf : f.WellFormed) (hroot : f.parent (some root) = none) (hopens : opens.Nodup)
    (hact : DeclaresOnly f root (start root) [root] opens act)
    (hact' : ∀ b, b.Settled f root → Roams f root b act') :
    Walked f root (((act >>= fun _ => act').run .empty).run (start root)).1.2
      (((act >>= fun _ => act').run .empty).run (start root)).2 := by
  rcases @hact settled_start .empty with ⟨new, more, hfirst, _⟩
  obtain ⟨new', hthen⟩ := @hact' _ hfirst.settled ((act.run .empty).run (start root)).1.2 _
    ⟨rfl, rfl⟩
  have hdeclared := hthen.declared.trans (hfirst.declared.trans (List.append_nil new))
  have hresolved := hthen.resolved.trans ((congrArg (new' ++ ·) hfirst.resolved).trans
    (List.append_nil new'))
  have honce := opensOnce_of_progress hopens hfirst
  refine ⟨hthen.same.settled hfirst.settled, ?_, ?_, ?_, ?_⟩
  · intro p x y hx hy
    exact honce (hthen.same.openedBy.mp hx) (hthen.same.openedBy.mp hy)
  · intro a ha
    exact (hfirst.arrives a (hdeclared ▸ ha)).extend hthen.same.extends
  · intro a ha
    exact (hthen.around a (hresolved ▸ ha)).congr hthen.same
  · intro a ha p hp
    rcases hfirst.subjects a (hdeclared ▸ ha) p hp with hhead | ⟨x, hx⟩
    · rw [List.mem_singleton.mp hhead] at hp
      cases hroot.symm.trans (hf.link_of_subject hp)
    · exact ⟨x, hthen.same.openedBy.mpr hx⟩

theorem walked_track (hf : f.WellFormed) (hroot : f.parent (some root) = none) :
    Walked f root (trail f (some root)) (ofForest f (some root)) := by
  have halone : ∀ p, ¬ f.SharesScope root p := fun p hp => by
    cases hroot.symm.trans (hf.link_of_sharesScope hp)
  have hnodup : (f.preorder (some root)).Nodup := by
    by_cases hlt : root < f.size
    · exact hf.nodup_preorder hlt
    · have hcell : f.cells[root]? = none := Array.getElem?_eq_none (Nat.not_lt.mp hlt)
      cases hsize : f.size <;> simp [preorder, preorderOnto, hsize, hcell]
  have hdeclares : DeclaresOnly f root (start root) [root] (f.preorder (some root))
      ((DeclarationWalk.ofDepth Trail.declare f (Limits.treeDepth + 1)).node programScope
        (some root)) := by
    refine @DeclarationWalk.Follows.node _ _ _ (DeclarationWalk.follows_ofDepth hf _)
      (start root) programScope (some root) ?_
    rintro _ ⟨⟩
    exact ⟨.root, halone⟩
  have hroams : ∀ b : Bindings, b.Settled f root → Roams f root b
      ((ResolutionWalk.ofDepth Trail.resolve f (Limits.treeDepth + 1)).node
        ⟨programScope, false⟩ .read (some root)) := by
    intro b hb
    apply (ResolutionWalk.follows_ofDepth hf hb hroot _).node
    rintro _ ⟨⟩
    exact .root
  rw [← track_snd]
  exact walked_of_declares hf hroot hnodup hdeclares hroams

/-!
## Agreement
-/

/-- There is one way only to arrive at a node. -/
theorem Arrives.unique (hf : f.WellFormed) (hroot : f.parent (some root) = none)
    (honce : b.OpensOnce) (hs : Arrives f root b i s) (ht : Arrives f root b i t) : s = t := by
  induction hs generalizing t with
  | root => exact (ht.eq_program hf hroot).symm
  | @inside i p x hlink hsubject hp hx =>
      cases ht with
      | root => cases hroot.symm.trans hlink
      | inside hlink' _ _ hy =>
          obtain rfl := Link.unique hlink hlink'
          exact honce hx hy
      | around hlink' _ hp' _ => exact absurd (Link.unique hlink hlink' ▸ hp) hp'
      | subject hsubject' _ =>
          exact absurd (Link.unique hlink (hf.link_of_subject hsubject') ▸ hsubject') hsubject
  | @around i p s hlink hsubject hp _ ih =>
      cases ht with
      | root => cases hroot.symm.trans hlink
      | inside hlink' _ hp' _ => exact absurd (Link.unique hlink hlink' ▸ hp') hp
      | around hlink' _ _ ht =>
          obtain rfl := Link.unique hlink hlink'
          exact ih ht
      | subject hsubject' _ =>
          exact absurd (Link.unique hlink (hf.link_of_subject hsubject') ▸ hsubject') hsubject
  | @subject i p s hsubject _ ih =>
      have hlink := hf.link_of_subject hsubject
      cases ht with
      | root => cases hroot.symm.trans hlink
      | inside hlink' hsubject' _ _ =>
          exact absurd (Link.unique hlink hlink' ▸ hsubject) hsubject'
      | around hlink' hsubject' _ _ =>
          exact absurd (Link.unique hlink hlink' ▸ hsubject) hsubject'
      | subject hsubject' ht =>
          obtain rfl := Link.unique hlink (hf.link_of_subject hsubject')
          exact ih ht

/-- A node that both walks reach is in the same scope in both, unless it lies in the subject of a
`switch`. A scope found at the node is its own and is attached to the scope of the first walk. -/
theorem walks_agree_iff (hf : f.WellFormed) (hroot : f.parent (some root) = none)
    (hs : (s, i) ∈ (trail f (some root)).declared)
    (ht : (t, i) ∈ (trail f (some root)).resolved) :
    (t = s ↔ ¬ (ofForest f (some root)).InSubject f i) ∧
      (∀ p, f.Subject i p → t ≠ s) ∧
      ∀ x, i ≠ root → (ofForest f (some root)).opened[i]? = some x →
        ((ofForest f (some root)).scope? x).bind Scope.node = some i ∧
          ((ofForest f (some root)).scope? x).bind Scope.parent = some s := by
  have hwalked := walked_track hf hroot
  have harrives : Arrives f root _ i s := hwalked.arrives _ hs
  have haround : Around f root _ i t := hwalked.around _ ht
  have hagree := harrives.agrees hf hroot hwalked.settled hwalked.once haround
  refine ⟨hagree, ?_, ?_⟩
  · intro p hp heq
    rcases hwalked.subjects _ hs p hp with ⟨x, hx⟩
    exact hagree.mp heq (.subject hp hx)
  · intro x hne hfound
    have hx := (hwalked.settled.found hfound).resolve_left fun h => hne h.1
    rcases hwalked.settled.attached hx with ⟨_, s', hparent, harrives'⟩
    rw [harrives.unique hf hroot hwalked.once harrives']
    exact ⟨hx.2, hparent⟩

/-- The subject is looked up among the names of the clauses. -/
theorem walks_agree_iff_switch :
    ∃ p s t, Program.parse "let x = 1; switch (x) \x7b case 0: let x; \x7d" = .ok p ∧
      p.forest.Subject 4 10 ∧ (s, 4) ∈ (trail p.forest (some p.root)).declared ∧
      (t, 4) ∈ (trail p.forest (some p.root)).resolved ∧ t ≠ s := by
  have hfacts : ∃ p ∈ (Program.parse "let x = 1; switch (x) \x7b case 0: let x; \x7d").toOption,
      p.forest.Subject 4 10 ∧ 4 ∈ (trail p.forest (some p.root)).declared.map Prod.snd ∧
        4 ∈ (trail p.forest (some p.root)).resolved.map Prod.snd := by
    decide +kernel
  rcases hfacts with ⟨p, hp, hsubject, hdeclared, hresolved⟩
  have hparse := Program.parse_of_mem_toOption hp
  rcases List.mem_map.mp hdeclared with ⟨⟨s, _⟩, hs, rfl⟩
  rcases List.mem_map.mp hresolved with ⟨⟨t, _⟩, ht, rfl⟩
  have hgrown := Program.grown_parse hparse
  have hroot := (hgrown.mem_iff.mp (List.mem_singleton_self _)).2
  have hagree := walks_agree_iff hgrown.wellFormed hroot hs ht
  exact ⟨p, s, t, hparse, hsubject, hs, ht, hagree.2.1 10 hsubject⟩

end Bindings
end Untangle
