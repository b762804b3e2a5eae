import Untangle.Proofs.Rewrite.InlinedCall
import Untangle.Proofs.Rewrite.Running
import Untangle.Rewrite.ProxyFunctions

/-!
# Rounds of inlining

Replacing one call after another keeps what is known in the middle of a round. The next round
starts from the bindings of the tree that the last one left.
-/

namespace Untangle

open Forest
open Relation (ReflTransGen)

namespace Rewrite

open StatementProxy

variable {f f' g : Forest} {b : Bindings} {proxies : Array (Option StatementProxy)} {root : Slot}
  {call : NodeId} {p : StatementProxy} {args : List Slot} {made : Instance} {done : Bool}

theorem run_inlineStatementCall_none (h : inlinableCall? b proxies root call f = none) :
    (inlineStatementCall b proxies root call).run f = (none, f) := by
  simp only [inlineStatementCall, StateT.run_bind, Edit.look, StateT.run_get, pure_bind,
    StateT.run_pure, h]
  rfl

theorem run_inlineStatementCall (h : inlinableCall? b proxies root call f = some (p, args))
    (hmade : (p.instantiate b args).run f = (made, f'))
    (hreplace : f'.replace (some call) made.root = (g, done)) :
    (inlineStatementCall b proxies root call).run f =
      (if done then some ⟨p.declaration, made.replicas⟩ else none, g) := by
  have hrun : (p.instantiate b args).run f = pure (made, f') := hmade
  have hrun' : (Edit.replace (some call) made.root).run f' = pure (done, g) :=
    congrArg Prod.swap hreplace
  simp only [inlineStatementCall, StateT.run_bind, Edit.look, StateT.run_get, pure_bind,
    StateT.run_pure, h, hrun, hrun']
  rfl

end Rewrite

/-!
## Runs of rounds
-/

namespace Rewrite

open Bindings StatementProxy

section Runs

variable {f g : Forest} {b : Bindings} {proxies : Array (Option StatementProxy)}
  {root call i : NodeId} {inlining : Inlining} {calls calls' : List NodeId}

/-- Only calls are replaced. -/
theorem inlinableCall?_eq_none (h : isCall f i = false) :
    inlinableCall? b proxies (some root) i f = none := by
  cases hcall : inlinableCall? b proxies (some root) i f with
  | none => rfl
  | some call =>
      rcases node_of_inlinableCall? hcall with ⟨_, callee, isOptional, inChain, hn, _⟩
      rw [isCall, satisfies, hn] at h
      cases h

theorem run_mapM_of_none
    (h : ∀ i ∈ calls, inlinableCall? b proxies (some root) i f = none) :
    (calls.mapM (inlineStatementCall b proxies (some root))).run f =
      (calls.map fun _ => none, f) := by
  induction calls with
  | nil => rfl
  | cons i calls ih =>
      rw [List.forall_mem_cons] at h
      rw [Node.run_mapM_cons, run_inlineStatementCall_none h.1, ih h.2]
      rfl

/-- Other nodes than calls are left alone. -/
theorem run_mapM_of_no_calls (h : ∀ i ∈ calls, isCall f i = false) :
    (calls.mapM (inlineStatementCall b proxies (some root))).run f =
      (calls.map fun _ => none, f) :=
  run_mapM_of_none fun i hi => inlinableCall?_eq_none (h i hi)

theorem run_mapM_of_one_call (h : ∀ i ∈ calls, isCall f i = false)
    (hcall : (inlineStatementCall b proxies (some root) call).run f = (some inlining, g))
    (h' : ∀ i ∈ calls', isCall g i = false) :
    (((calls ++ call :: calls').mapM (inlineStatementCall b proxies (some root))).run f) =
      ((calls.map fun _ => none) ++ some inlining :: calls'.map fun _ => none, g) := by
  induction calls with
  | nil =>
      rw [List.nil_append, Node.run_mapM_cons, hcall, run_mapM_of_no_calls h']
      rfl
  | cons i calls ih =>
      rw [List.forall_mem_cons] at h
      rw [List.cons_append, Node.run_mapM_cons,
        run_inlineStatementCall_none (inlinableCall?_eq_none h.1), ih h.2]
      rfl

theorem run_inlineRound (hroot : f.contains (some root) = true)
    (hwhole : (ofForest f (some root)).truncated = false) {results : List (Option Inlining)}
    (h : ((f.preorder (some root)).mapM (inlineStatementCall (ofForest f (some root))
      (ready f (ofForest f (some root))) (some root))).run f = (results, g)) :
    (inlineRound (some root)).run.run f = (.ok (results.filterMap id), g) := by
  rw [inlineRound, run_bind_ok (run_bind_of_whole hroot hwhole), run_bind_ok (run_get f),
    run_bind_ok (run_mapM_lift _ _ f), h]
  rfl

theorem run_inlineRounds_nil {rounds : Nat}
    (h : (inlineRound (some root)).run.run f = (.ok [], g)) :
    (inlineRounds (some root) (rounds + 1)).run.run f = (.ok [], g) := by
  rw [inlineRounds, run_bind_ok h]
  rfl

theorem run_inlineRounds_cons {rounds : Nat} {h : Forest} {inlined inlined' : List Inlining}
    (hround : (inlineRound (some root)).run.run f = (.ok (inlining :: inlined), g))
    (hrounds : (inlineRounds (some root) rounds).run.run g = (.ok inlined', h)) :
    (inlineRounds (some root) (rounds + 1)).run.run f =
      (.ok (inlining :: inlined ++ inlined'), h) := by
  rw [inlineRounds, run_bind_ok hround]
  dsimp only
  rw [run_bind_ok hrounds]
  rfl

end Runs

end Rewrite

/-- In the middle of a round that began with `s`, a call of `g` has been replaced, which left `h`. -/
structure StatementProxy.CallInlined (s g h : Forest) (root call : NodeId)
    (inlining : Rewrite.Inlining) (p : StatementProxy) (X Y e j : NodeId) (callee : Slot)
    (args : List Slot) (source : NodeId → NodeId) : Prop where
  recognised : ∃ own binding, (Bindings.ofForest s (some root)).resolve callee = some own ∧
    (Bindings.ofForest s (some root)).binding? own = some binding ∧
      Recognised s (Bindings.ofForest s (some root)) own binding p
  declaration : inlining.declaration = p.declaration
  expression : p.expression = some e
  node : ∃ isOptional inChain,
    g.node? (some call) = some (.call .call callee args isOptional inChain)
  statement : g.node? (some X) = some (.operand .expressionStatement (some call))
  site : CallSite p s root call X callee args
  host : Hosted s root Y e
  graft : ∃ h₁, Graft g h₁ h call X j
  inlined : Inlined p s h root X e j callee args
    (p.argumentAt? g (Bindings.ofForest s (some root)) args) inlining.replicas source

namespace CallsReplaced

open StatementProxy

variable {s g : Forest} {root call X : NodeId} {log : List Replica} {p : StatementProxy}
  {args : List Slot} {callee : Slot} {isOptional inChain : Bool}

/-!
## One call
-/

section Call

variable (h : CallsReplaced s g root log) (hs : s.HasProgram root) (hlayered : s.LayeredBelow root)
  (hwhole : (Bindings.ofForest s (some root)).truncated = false)

include h hs hwhole

/-- The instance repeats the expression of the proxy as it was at the beginning. -/
theorem repeats {h₁ h₂ : Forest} {made : List Replica} {source : NodeId → NodeId} {Y e j : NodeId}
    (hsite : CallSite p s root call X callee args) (he : Hosted s root Y e)
    (hd : Draft g h₁ (Bindings.ofForest s (some root))
      (p.argumentAt? g (Bindings.ofForest s (some root)) args) made [] source e j)
    (hx : Graft g h₁ h₂ call X j) :
    Repeats s h₂ (Bindings.ofForest s (some root))
      (p.argumentAt? g (Bindings.ofForest s (some root)) args) made source e j := by
  have hbelow : ∀ {k}, h₂.Within k j → s.Within (source k) e := fun hk =>
    h.within_of_plain hs he.plain (hd.below _ (hx.within_new.mp hk))
  refine ⟨hd.root, fun k hk => hbelow hk, ?_, ?_, ?_⟩
  · intro k hk
    have hk' := hx.within_new.mp hk
    rcases hd.node k hk' with ⟨m, hm, hpart⟩
    have hne : k ≠ X := by
      rintro rfl
      exact Nat.not_lt.mpr (hx.new k hk') (h.program.wellFormed.lt_size_of_link hx.linked)
    refine ⟨m, (hx.node hne).trans hm, ?_⟩
    cases hpart with
    | copy hsource hrest hlog =>
        refine .copy ?_ hrest hlog
        rcases he.plain _ (hbelow hk) with ⟨n, hn, hplain⟩
        rw [hn, ← h.node?_of_plain hn hplain, hsource]
    | @argument a harg hnode hslots hlog =>
        refine .argument harg ?_ hslots hlog
        rcases hsite.leaves _ (mem_of_argumentAt? harg) with ⟨_, n, heq, hn, hplain, _⟩
        obtain rfl := Option.some.inj heq
        rw [hn, ← h.node?_of_plain hn hplain, hnode]
  · exact fun k k' hk hk' =>
      hd.injective k k' (hx.within_new.mp hk) (hx.within_new.mp hk')
  · intro i hi harg
    rcases he.used_of_argumentAt? hs hwhole hi harg with ⟨_, name, hused⟩
    exact ⟨name, hused.node⟩

/-- The free names of the proxy are looked up at the call. -/
theorem inlined {h₁ h₂ : Forest} {made : List Replica} {source : NodeId → NodeId} {Y e j : NodeId}
    {own : BindingId} {binding : Binding}
    (hrecognised : Recognised s (Bindings.ofForest s (some root)) own binding p)
    (hexpression : p.expression = some e)
    (hsite : CallSite p s root call X callee args) (he : Hosted s root Y e)
    (hX : g.Within X root) (hstatement : g.node? (some X) =
      some (.operand .expressionStatement (some call)))
    (hd : Draft g h₁ (Bindings.ofForest s (some root))
      (p.argumentAt? g (Bindings.ofForest s (some root)) args) made [] source e j)
    (hx : Graft g h₁ h₂ call X j) :
    Inlined p s h₂ root X e j callee args
      (p.argumentAt? g (Bindings.ofForest s (some root)) args) made source := by
  have hg := h.program.wellFormed
  have hrepeats := h.repeats hs hwhole hsite he hd hx
  have hplain : h₂.Plain j := hrepeats.plain he.plain fun i a harg => by
    rcases hsite.leaves _ (mem_of_argumentAt? harg) with ⟨_, n, heq, hn, hplain, _⟩
    obtain rfl := Option.some.inj heq
    exact ⟨n, hn, hplain⟩
  have hcall : g.Plain call := h.plain_of_plain hs (hsite.plain hs hwhole)
  have hkept := hx.kept h.program hstatement hcall hplain
  refine ⟨hx.hasProgram h.program hstatement, h.kept.trans hkept hs.wellFormed hg,
    hx.statement_within hg hX, hx.link.mpr (.inl ⟨rfl, rfl⟩), hx.statement hstatement, hplain,
    hrepeats, ?_, ?_, ?_⟩
  · intro i text hi hn hreference harg
    have hmem : i ∈ s.preorder p.expression := by
      rw [hexpression]
      exact (hs.wellFormed.mem_preorder (lt_size_of_parent he.link)).mpr hi
    have hmovable := isMovable_of_freeNames? hrecognised.names hmem
    rcases parameter_or_freeName hn hreference hmovable with ⟨k, hk, hparameter⟩ | hfree
    · exact absurd harg
        (h.argumentAt?_ne_none hs he hi hn hreference hk hparameter hsite.length)
    · exact mem_of_freeNames? hrecognised.names hmem hfree
  · exact fun i a _ harg => mem_of_argumentAt? harg
  · exact fun i hi harg => he.used_of_argumentAt? hs hwhole hi harg

/-- What is known of a round is known after one more call was replaced. -/
theorem extend {h₁ h₂ : Forest} {made : List Replica} {source : NodeId → NodeId} {Y e j : NodeId}
    {arg : NodeId → Option Slot} (hsite : CallSite p s root call X callee args)
    (he : Hosted s root Y e) (hstatement : g.node? (some X) =
      some (.operand .expressionStatement (some call)))
    (hx : Graft g h₁ h₂ call X j)
    (hi : Inlined p s h₂ root X e j callee args arg made source) :
    CallsReplaced s h₂ root (log ++ made) := by
  have hg := h.program.wellFormed
  have hcall : g.Plain call := h.plain_of_plain hs (hsite.plain hs hwhole)
  have hkept := hx.kept h.program hstatement hcall hi.plain
  have hroot : root < g.size := by
    rcases h.program.node with ⟨statements, hn⟩
    exact lt_size_of_node? hn
  refine ⟨hi.program, hx.layeredBelow h.program hstatement hcall hi.plain h.layered, hi.kept,
    ?_, ?_⟩
  · intro c i hlink
    by_cases hc : c = call
    · rcases hsite.call with ⟨isOptional, inChain, hn⟩
      exact .inr ⟨callee, args, isOptional, inChain, hc ▸ hn⟩
    · refine (h.link hlink).imp_left fun hlink' => ?_
      exact (hx.link_old (lt_size_of_parent hlink')).mpr ⟨hc, hlink'⟩
  · intro i hiroot hlt
    by_cases hold : i < g.size
    · rcases h.made i (hkept.carried.within hg hiroot hold) hlt with ⟨r, hr, hrecorded⟩
      have hkept' := hrecorded.kept hkept h.program hi.program hiroot hold
      exact ⟨r, List.mem_append_left _ hr, hkept'.mono (List.subset_append_left _ _)⟩
    · have hbelow := hx.within_of_new hg hroot hiroot (Nat.not_lt.mp hold)
      rcases hi.denotes hs hwhole hsite he (hx.within_new.mpr hbelow) with ⟨r, hr, hrecorded⟩
      exact ⟨r, List.mem_append_right _ hr, hrecorded.mono (List.subset_append_right _ _)⟩

include hlayered

/-- A call is left alone, or it is replaced. -/
theorem exists_callInlined (hlt : call < s.size) {x : Option Rewrite.Inlining} {g' : Forest}
    (hrun : (Rewrite.inlineStatementCall (Bindings.ofForest s (some root))
      (ready s (Bindings.ofForest s (some root))) (some root) call).run g = (x, g')) :
    x = none ∧ g' = g ∨ ∃ inlining p X Y e j callee args source, x = some inlining ∧
      CallInlined s g g' root call inlining p X Y e j callee args source := by
  cases hcall : Rewrite.inlinableCall? (Bindings.ofForest s (some root))
      (ready s (Bindings.ofForest s (some root))) (some root) call g with
  | none =>
      rw [Rewrite.run_inlineStatementCall_none hcall] at hrun
      obtain ⟨rfl, rfl⟩ := Prod.mk.inj hrun
      exact .inl ⟨rfl, rfl⟩
  | some found =>
      obtain ⟨p, args⟩ := found
      rcases Rewrite.call_of_inlinableCall? h.program.wellFormed hcall with
        ⟨hwithin, callee, isOptional, inChain, X, hn, hproxy, hp⟩
      rcases exists_recognised_of_ofCall? hproxy with ⟨own, binding, hown, hbinding, hrecognised⟩
      have hsite := h.callSite hs hlt hwithin hn (by rw [hown]; nofun) hp
      cases he : p.expression with
      | none =>
          have hnone : g.replace (some call) none = (g, false) := by
            unfold Forest.replace
            cases g.parent (some call) <;> rfl
          rw [Rewrite.run_inlineStatementCall hcall (run_instantiate_none he) hnone] at hrun
          obtain ⟨rfl, rfl⟩ := Prod.mk.inj hrun
          exact .inl ⟨rfl, rfl⟩
      | some e =>
          rcases hrecognised.exists_hosted hs hlayered hbinding he with ⟨Y, hhosted⟩
          have hinstantiable :
              Instantiable p g (Bindings.ofForest s (some root)) args e := by
            apply h.instantiable hs hwhole hhosted
            intro t ht
            rcases hp.leaves t ht with ⟨a, n, ha, hn, _, hslots⟩
            exact ⟨a, n, ha, hn, hslots⟩
          rcases run_instantiate hinstantiable he with ⟨made, h₁, source, j, hmade, hj, hd⟩
          obtain ⟨h₂, hreplace, hx⟩ := graft_replace h.program.wellFormed hd.extends_ hd.wellFormed
            hd.free hd.new hp.link
          rw [Rewrite.run_inlineStatementCall hcall hmade (hj ▸ hreplace)] at hrun
          obtain ⟨rfl, rfl⟩ := Prod.mk.inj hrun
          have hX : g.Within X root := by
            rcases ReflTransGen.cases_head hwithin with rfl | ⟨q, hq, hpath⟩
            · cases h.program.parent.symm.trans hp.link
            · exact Link.unique hq hp.link ▸ hpath
          have hi := h.inlined hs hwhole hrecognised he hsite hhosted hX hp.statement hd hx
          exact .inr ⟨_, p, X, Y, e, j, callee, args, source, rfl,
            ⟨⟨own, binding, hown, hbinding, hrecognised⟩, rfl, he, ⟨isOptional, inChain, hn⟩,
              hp.statement, hsite, hhosted, ⟨h₁, hx⟩, hi⟩⟩

/-- A call is left alone, or it is replaced and the tree is still in the middle of the round. -/
theorem inlineStatementCall (hlt : call < s.size) {x : Option Rewrite.Inlining} {g' : Forest}
    (hrun : (Rewrite.inlineStatementCall (Bindings.ofForest s (some root))
      (ready s (Bindings.ofForest s (some root))) (some root) call).run g = (x, g')) :
    x = none ∧ g' = g ∨ ∃ inlining, x = some inlining ∧
      CallsReplaced s g' root (log ++ inlining.replicas) ∧
        Bindings.DeclaredOnce s root inlining.declaration := by
  rcases h.exists_callInlined hs hlayered hwhole hlt hrun with
    hnone | ⟨inlining, p, X, Y, e, j, callee, args, source, rfl, hx⟩
  · exact .inl hnone
  · rcases hx.recognised with ⟨own, binding, _, hbinding, hrecognised⟩
    rcases hx.graft with ⟨h₁, hgraft⟩
    refine .inr ⟨inlining, rfl, ?_, ?_⟩
    · exact h.extend hs hwhole hx.site hx.host hx.statement hgraft hx.inlined
    · exact hx.declaration ▸ hrecognised.declaredOnce hs hbinding

/-!
## Rounds
-/

/-- Every call of a list is left alone or replaced. -/
theorem mapM_inlineStatementCall {calls : List NodeId} (hlt : ∀ call ∈ calls, call < s.size) :
    ∃ results g', (calls.mapM (Rewrite.inlineStatementCall (Bindings.ofForest s (some root))
        (ready s (Bindings.ofForest s (some root))) (some root))).run g = (results, g') ∧
      CallsReplaced s g' root
        (log ++ (results.filterMap id).flatMap Rewrite.Inlining.replicas) ∧
      (∀ inlining ∈ results.filterMap id,
        Bindings.DeclaredOnce s root inlining.declaration) ∧
      (results.filterMap id = [] → g' = g) := by
  induction calls generalizing g log with
  | nil => exact ⟨[], g, rfl, by simpa using h, by simp, fun _ => rfl⟩
  | cons call calls ih =>
      rw [List.forall_mem_cons] at hlt
      rcases hcall : (Rewrite.inlineStatementCall (Bindings.ofForest s (some root))
        (ready s (Bindings.ofForest s (some root))) (some root) call).run g with ⟨x, g₁⟩
      rcases h.inlineStatementCall hs hlayered hwhole hlt.1 hcall with ⟨rfl, rfl⟩ |
        ⟨inlining, rfl, hstep, honce⟩
      · rcases ih h hlt.2 with ⟨results, g', hrun, hreplaced, hall, hsame⟩
        refine ⟨none :: results, g', ?_, hreplaced, hall, hsame⟩
        rw [Node.run_mapM_cons, hcall, hrun]
      · rcases ih hstep hlt.2 with ⟨results, g', hrun, hreplaced, hall, _⟩
        refine ⟨some inlining :: results, g', ?_, ?_, ?_, ?_⟩
        · rw [Node.run_mapM_cons, hcall, hrun]
        · rw [List.filterMap_cons_some (f := id) rfl, List.flatMap_cons, ← List.append_assoc]
          exact hreplaced
        · rw [List.filterMap_cons_some (f := id) rfl, List.forall_mem_cons]
          exact ⟨honce, hall⟩
        · rw [List.filterMap_cons_some (f := id) rfl]
          intro hnil
          cases hnil

end Call

/-- Calls are replaced in the tree that an earlier round left. -/
theorem trans {k : Forest} {log' : List Replica} (h : CallsReplaced s g root log)
    (h' : CallsReplaced g k root log') (hs : s.HasProgram root)
    (hwhole : (Bindings.ofForest s (some root)).truncated = false) :
    CallsReplaced s k root (log ++ log') := by
  have hg := h.program.wellFormed
  refine ⟨h'.program, h'.layered, h.kept.trans h'.kept hs.wellFormed hg, ?_, ?_⟩
  · intro c i hlink
    rcases h.link hlink with hlink' | hcall
    · refine (h'.link hlink').imp_right ?_
      rintro ⟨callee, args, isOptional, inChain, hn⟩
      exact ⟨callee, args, isOptional, inChain,
        h.node?_eq (lt_size_of_parent hlink) hn nofun⟩
    · exact .inr hcall
  · intro i hi hlt
    by_cases hold : i < g.size
    · rcases h.made i (h'.kept.carried.within hg hi hold) hlt with ⟨r, hr, hrecorded⟩
      have hkept := hrecorded.kept h'.kept h.program h'.program hi hold
      exact ⟨r, List.mem_append_left _ hr, hkept.mono (List.subset_append_left _ _)⟩
    · rcases h'.made i hi (Nat.not_lt.mp hold) with ⟨r, hr, hrecorded⟩
      rcases hrecorded.origin with ⟨j, hj, hwithin, htext, hdenotes⟩
      refine ⟨r, List.mem_append_right _ hr, hrecorded.node, hrecorded.source_lt, hrecorded.text,
        hrecorded.denotes, ?_⟩
      by_cases hjold : j < s.size
      · -- The first stretch kept the node and what it stands for.
        have hjwithin := h.kept.carried.within hs.wellFormed hwithin hjold
        have hjdenotes := Bindings.denotes_declarationOf hs hwhole j
        rw [hdenotes.unique (hjdenotes.kept h.kept hs h.program hwithin hjold)]
        refine ⟨j, hj.trans (.old hjold) (List.subset_append_right _ _), hjwithin, ?_, hjdenotes⟩
        rw [← htext, h.kept.carried.identifierText?_eq hjold]
      · rcases h.made j hwithin (Nat.not_lt.mp hjold) with ⟨r', hr', hrecorded'⟩
        rcases hrecorded'.origin with ⟨k, hk, hkwithin, hktext, hkdenotes⟩
        obtain rfl := hrecorded'.node
        rw [hdenotes.unique hrecorded'.denotes]
        refine ⟨k, hj.trans ?_ (List.subset_append_right _ _), hkwithin, hktext.trans htext,
          hkdenotes⟩
        exact (CopyOf.copy hr' hk).mono (List.subset_append_left _ _)

end CallsReplaced

namespace Rewrite

open StatementProxy

variable {f g : Forest} {root : NodeId} {inlined : List Inlining}

/-- What a stretch of inlining leaves behind. -/
structure Inlines (f g : Forest) (root : NodeId) (inlined : List Inlining) : Prop where
  replaced : CallsReplaced f g root (inlined.flatMap Inlining.replicas)
  once : ∀ inlining ∈ inlined, Bindings.DeclaredOnce g root inlining.declaration
  same : inlined = [] → g = f

theorem inlines_round (hf : f.HasProgram root) (hlayered : f.LayeredBelow root)
    (hrun : (inlineRound (some root)).run.run f = (.ok inlined, g)) :
    (Bindings.ofForest f (some root)).truncated = false ∧ Inlines f g root inlined := by
  rcases run_bind_eq_ok.mp hrun with ⟨b, f', hbind, hrest⟩
  rcases run_bind_tree hbind with ⟨rfl, rfl, hwhole⟩
  have hroot : root < f'.size := by
    rcases hf.node with ⟨statements, hn⟩
    exact lt_size_of_node? hn
  have hlt : ∀ call ∈ f'.preorder (some root), call < f'.size := fun call hcall =>
    lt_size_of_within ((hf.wellFormed.mem_preorder hroot).mp hcall) hroot
  obtain ⟨results, g', hresults, hreplaced, honce, hsame⟩ :=
    (CallsReplaced.refl hf hlayered).mapM_inlineStatementCall hf hlayered hwhole hlt
  rw [run_bind_ok (run_get f')] at hrest
  rw [run_bind_ok (run_mapM_lift _ _ f'), hresults] at hrest
  obtain ⟨hanswer, rfl⟩ := Prod.mk.inj hrest
  obtain rfl := Except.ok.inj hanswer
  refine ⟨hwhole, hreplaced, fun inlining hmem => ?_, hsame⟩
  exact (honce inlining hmem).kept hreplaced.kept hf

theorem inlines_rounds {rounds : Nat} (hf : f.HasProgram root) (hlayered : f.LayeredBelow root)
    (hrun : (inlineRounds (some root) rounds).run.run f = (.ok inlined, g)) :
    (0 < rounds → (Bindings.ofForest f (some root)).truncated = false) ∧
      Inlines f g root inlined := by
  induction rounds generalizing f inlined with
  | zero =>
      obtain ⟨hanswer, rfl⟩ := Prod.mk.inj hrun
      obtain rfl := Except.ok.inj hanswer
      exact ⟨fun hpos => absurd hpos (Nat.lt_irrefl 0), .refl hf hlayered, by simp, fun _ => rfl⟩
  | succ rounds ih =>
      rcases run_bind_eq_ok.mp hrun with ⟨first, f', hround, hrest⟩
      obtain ⟨hwhole, hfirst⟩ := inlines_round hf hlayered hround
      refine ⟨fun _ => hwhole, ?_⟩
      cases first with
      | nil =>
          obtain ⟨hanswer, rfl⟩ := Prod.mk.inj hrest
          obtain rfl := Except.ok.inj hanswer
          exact hfirst
      | cons inlining first =>
          rcases run_bind_eq_ok.mp hrest with ⟨others, g', hothers, hdone⟩
          obtain ⟨hanswer, rfl⟩ := Prod.mk.inj hdone
          obtain rfl := Except.ok.inj hanswer
          have hlast := (ih hfirst.replaced.program hfirst.replaced.layered hothers).2
          refine ⟨?_, ?_, fun hnil => ?_⟩
          · rw [List.flatMap_append]
            exact hfirst.replaced.trans hlast.replaced hf hwhole
          · intro inlining' hmem
            rcases List.mem_append.mp hmem with hmem | hmem
            · exact (hfirst.once _ hmem).kept hlast.replaced.kept hfirst.replaced.program
            · exact hlast.once _ hmem
          · cases hnil

end Rewrite
end Untangle
