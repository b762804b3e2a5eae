import Untangle.Proofs.Grammar.LayeredPrograms
import Untangle.Proofs.Grammar.Programs
import Untangle.Proofs.Rewrite.InliningRounds
import Untangle.Proofs.Rewrite.UnusedFunctions

/-!
# Inlining is hygienic

The rounds replace calls, and the functions that are never used any more are removed. In the tree
that is left, old names stand for what they stood for in the program, and a name that was made
stands for what the name stood for that it is a copy of.
-/

namespace Untangle
namespace Rewrite

open Forest Bindings StatementProxy

variable {f g : Forest} {root i : NodeId} {text : String}

/-- What is known of a name in the end. -/
structure Hygienic (f g : Forest) (root : NodeId) (log : List Replica) : Prop where
  /-- No name is captured. -/
  old : ∀ {i text}, g.Within i root → g.identifierText? (some i) = some text → i < f.size →
    declarationOf g root i = declarationOf f root i
  /-- No name that is inlined loses its declaration, whether the name that it was copied from was
  in the program or was inlined itself. -/
  made : ∀ {i text}, g.Within i root → g.identifierText? (some i) = some text → f.size ≤ i →
    ∃ r ∈ log, r.node = i ∧ g.identifierText? (some r.source) = some text ∧
      declarationOf g root i = r.declaration ∧ ∃ k, CopyOf f log r.source k ∧
        f.identifierText? (some k) = some text ∧ declarationOf f root k = r.declaration

theorem hygienic_of_pruned {s : Forest} {log : List Replica} (hf : f.HasProgram root)
    (hwhole : (ofForest f (some root)).truncated = false)
    (hs : (ofForest s (some root)).truncated = false) (h : CallsReplaced f s root log)
    (h' : Pruned s g root) : Hygienic f g root log := by
  constructor
  · intro i text hi hname hlt
    rcases h'.names hi hname with ⟨_, hwithin, hdecl⟩
    have hkept := (denotes_declarationOf hf hwhole i).kept h.kept hf h.program hwithin hlt
    exact hdecl.trans ((denotes_declarationOf h.program hs i).unique hkept)
  · intro i text hi hname hle
    rcases h'.names hi hname with ⟨hlt, hwithin, hdecl⟩
    rcases h.made i hwithin hle with ⟨r, hr, hrecorded⟩
    rcases hrecorded.origin with ⟨k, hk, _, horigin, hdenotes⟩
    rw [h'.text hlt] at hname
    refine ⟨r, hr, hrecorded.node, ?_, ?_, k, hk, horigin.trans hname, ?_⟩
    · rw [h'.text hrecorded.source_lt, hrecorded.text, hname]
    · exact hdecl.trans ((denotes_declarationOf h.program hs i).unique hrecorded.denotes)
    · exact (denotes_declarationOf hf hwhole k).unique hdenotes

theorem exists_pruned {changed : Bool} (hf : f.HasProgram root) (hlayered : f.LayeredBelow root)
    (hrun : (inlineStatementProxies (some root)).run.run f = (.ok changed, g)) :
    ∃ inlined s, (inlineRounds (some root) Limits.rounds).run.run f = (.ok inlined, s) ∧
      (ofForest f (some root)).truncated = false ∧ (ofForest s (some root)).truncated = false ∧
      Inlines f s root inlined ∧ Pruned s g root := by
  rcases run_bind_eq_ok.mp hrun with ⟨inlined, s, hrounds, hrest⟩
  obtain ⟨hwhole, hinlines⟩ := inlines_rounds hf hlayered hrounds
  refine ⟨inlined, s, hrounds, hwhole (by decide), ?_⟩
  have hs := hinlines.replaced.program
  cases inlined with
  | nil =>
      obtain ⟨_, rfl⟩ := Prod.mk.inj hrest
      have hwhole' := hwhole (by decide)
      rw [← hinlines.same rfl] at hwhole'
      exact ⟨hwhole', hinlines, .refl hs hwhole'⟩
  | cons inlining inlined =>
      rcases run_bind_eq_ok.mp hrest with ⟨b, s', hbind, hremovals⟩
      rcases run_bind_tree hbind with ⟨rfl, rfl, hwhole'⟩
      rcases run_bind_eq_ok.mp hremovals with ⟨u, g', hloop, hdone⟩
      obtain ⟨_, rfl⟩ := Prod.mk.inj hdone
      refine ⟨hwhole', hinlines, ?_⟩
      refine pruned_removals (.refl hs hwhole') hs hwhole' ?_ hloop
      intro d hd
      rw [List.mem_mergeSort, List.mem_eraseDups] at hd
      rcases List.mem_map.mp hd with ⟨inlining', hmem, rfl⟩
      exact hinlines.once inlining' hmem

theorem inlineStatementProxies_hygienic {source : String} {p : Program} {changed : Bool}
    (hparse : Program.parse source = .ok p)
    (hrun : (inlineStatementProxies (some p.root)).run.run p.forest = (.ok changed, g)) :
    ∃ inlined s, (inlineRounds (some p.root) Limits.rounds).run.run p.forest = (.ok inlined, s) ∧
      (Rewrite.bind (some p.root)).run.run g = (.ok (ofForest g (some p.root)), g) ∧
      Hygienic p.forest g p.root (inlined.flatMap Inlining.replicas) := by
  have hf := Program.hasProgram_parse hparse
  have hlayered := (Program.layered_parse hparse).below p.root
  rcases exists_pruned hf hlayered hrun with ⟨inlined, s, hrounds, hwhole, hs, hinlines, hpruned⟩
  refine ⟨inlined, s, hrounds, run_bind_of_whole ?_ hpruned.whole,
    hygienic_of_pruned hf hwhole hs hinlines.replaced hpruned⟩
  rcases hpruned.program.node with ⟨statements, hn⟩
  exact (cell?_isSome ..).mpr (lt_size_of_node? hn)

/-!
## A proxy of one name
-/

/-- Removing functions never fails. -/
theorem exists_run_removals (b : Bindings) (root : NodeId) (declarations : List NodeId)
    (f : Forest) :
    ∃ g, (forIn declarations PUnit.unit fun d _ => do
        (removeUnused b (some root) d : Edit Unit)
        pure (.yield PUnit.unit) : Rewrite PUnit).run.run f = (.ok PUnit.unit, g) := by
  induction declarations generalizing f with
  | nil => exact ⟨f, rfl⟩
  | cons d declarations ih =>
      rw [List.forIn_cons, bind_assoc, run_bind_ok (run_lift _ _), pure_bind]
      exact ih _

theorem exists_run_inlineStatementProxies {inlining : Inlining} {inlined : List Inlining}
    (hrounds : (inlineRounds (some root) Limits.rounds).run.run f =
      (.ok (inlining :: inlined), g))
    (hroot : g.contains (some root) = true)
    (hwhole : (ofForest g (some root)).truncated = false) :
    ∃ h, (inlineStatementProxies (some root)).run.run f = (.ok true, h) := by
  obtain ⟨h, hloop⟩ := exists_run_removals (ofForest g (some root)) root
    (((inlining :: inlined).map Inlining.declaration).eraseDups.mergeSort) g
  refine ⟨h, run_bind_eq_ok.mpr ⟨_, _, hrounds, ?_⟩⟩
  change (Rewrite.bind (some root) >>= _).run.run g = _
  rw [run_bind_ok (run_bind_of_whole hroot hwhole), run_bind_ok hloop]
  rfl

section Example

variable {b : Bindings}

/-- A name that no scope declares is not found. -/
theorem lookup_eq_none {name : String} (h : ∀ s : ScopeId, b.names[(s, name)]? = none)
    (s : ScopeId) : b.lookup s name = none := by
  have hfrom : ∀ steps s, b.lookupFrom name steps s = none := by
    intro steps
    induction steps with
    | zero => exact fun _ => rfl
    | succ steps ih =>
        intro s
        cases s with
        | none => rfl
        | some s =>
            rw [lookupFrom, h]
            exact ih _
  exact hfrom _ _

/-- The scopes of `function p() { x; } p();`, by the nodes that open them. -/
def openedByProxy (i : NodeId) : Option ScopeId :=
  if i = 4 then some 1 else if i = 8 then some 0 else none

/-- Tables of names cannot be evaluated, but what the two walks do can be. -/
theorem tables_of_walks
    (houtline : outline f 8 = .declare false .function "p" 0 4 (.scope .function 4 .done .done))
    (hstops : f.itinerary openedByProxy (Limits.treeDepth + 1) (.value .read)
        ⟨programScope, false⟩ (some 8) =
      [.mark false (some 0), .use 1 false .read "x" 1, .use 0 false .call "p" 5]) :
    (ofForest f (some 8)).bindings =
        #[⟨"p", .function, 0, 4, 0, false, false, #[⟨5, .call⟩]⟩] ∧
      (ofForest f (some 8)).resolve (some 5) = some 0 ∧
      (ofForest f (some 8)).resolve (some 1) = none ∧
      ∀ s, (ofForest f (some 8)).lookup s "x" = none := by
  have hd : declarations f 8 =
      (Outline.declare false .function "p" 0 4 (.scope .function 4 .done .done)).play
        programScope programScope (start 8) := by
    rw [declarations, houtline]
  simp only [Outline.play, Bindings.declare, openScope, attach, start, Bindings.empty,
    Std.HashMap.getElem?_empty, Option.filter_none] at hd
  have hopened : ((declarations f 8).opened[·]?) = openedByProxy := by
    funext i
    simp [openedByProxy, hd, Std.HashMap.getElem?_insert, @eq_comm _ 4, @eq_comm _ 8]
  have hx : ∀ s : ScopeId, (declarations f 8).names[(s, "x")]? = none := by
    simp [hd]
  have hp : (declarations f 8).lookup 0 "p" = some 0 := by
    have hsteps : Limits.scopeSteps = (Limits.scopeSteps - 1) + 1 := rfl
    have hname : (declarations f 8).names[((0 : ScopeId), "p")]? = some 0 := by
      simp [hd, programScope]
    rw [lookup, hsteps, lookupFrom, hname]
  have hbindings : (declarations f 8).bindings =
      #[⟨"p", .function, 0, 4, 0, false, false, #[]⟩] := by
    rw [hd]
    rfl
  have hresolved : (declarations f 8).resolved[1]? = none := by
    simp [hd]
  have hunused : (declarations f 8).addReference 1 false .read "x" 1 = declarations f 8 := by
    simp only [addReference, Bool.false_eq_true, if_false, lookup_eq_none hx]
  have hafter : ofForest f (some 8) = (declarations f 8).addReference 0 false .call "p" 5 := by
    rw [ofForest_eq, route, hopened, hstops]
    exact congrArg (·.addReference 0 false .call "p" 5) hunused
  refine ⟨?_, ?_, ?_, fun s => ?_⟩
  · rw [hafter]
    simp [addReference, hp, modifyBinding, hbindings]
  · simp [hafter, addReference, hp, modifyBinding, resolve]
  · simp [hafter, addReference, hp, modifyBinding, resolve, Std.HashMap.getElem?_insert,
      hresolved]
  · rw [(sameTables_ofForest f 8).lookup]
    exact lookup_eq_none hx s

theorem ready_of_tables {ident : Slot} {isAsync isGenerator : Bool}
    (hbindings : b.bindings = #[⟨"p", .function, 0, 4, 0, false, false, #[⟨5, .call⟩]⟩])
    (hx : b.resolve (some 1) = none)
    (hfunction : f.node? (some 4) =
      some (.function .declaration ident [] (some 3) isAsync isGenerator))
    (hsole : f.soleExpression? (some 3) = some (some 1)) (hexpression : f.preorder (some 1) = [1])
    (hname : f.node? (some 1) = some (.name .identifier "x"))
    (hreference : f.isReference (some 1) = true) :
    ready f b = #[some ⟨4, some 1, [], [("x", none)]⟩] := by
  have hproxy : ofBinding? f b 0 ⟨"p", .function, 0, 4, 0, false, false, #[⟨5, .call⟩]⟩ =
      some ⟨4, some 1, [], [("x", none)]⟩ := by
    simp [ofBinding?, hfunction, hsole, hexpression, freeNames?, contribution, hname, hreference,
      hx, Binding.isStable, Binding.hasWrites]
  simp [ready, all, hbindings, hproxy, callsProxy, hexpression, hname]

theorem inlinableCall?_of_tables {isOptional inChain : Bool}
    (hcall : f.node? (some 6) = some (.call .call (some 5) [] isOptional inChain))
    (hstatement : f.node? (f.parent (some 6)) = some (.operand .expressionStatement (some 6)))
    (hattached : f.isAttached (some 6) (some 8) = true) (hresolve : b.resolve (some 5) = some 0)
    (hlookup : ∀ s, b.lookup s "x" = none) :
    inlinableCall? b #[some ⟨4, some 1, [], [("x", none)]⟩] (some 8) 6 f =
      some (⟨4, some 1, [], [("x", none)]⟩, []) := by
  simp [inlinableCall?, hattached, hcall, ofCall?, hresolve, canInline, satisfies, hstatement,
    hlookup]

/-- Without parameters an expression that is one node is copied as it is. -/
theorem run_instantiate_of_leaf {p : StatementProxy} {e j : NodeId} (hp : p.expression = some e)
    (hparameters : p.parameters = []) (hsource : f.preorder (some e) = [e])
    (hcopy : f.copy (some e) = (some j, g)) (htarget : g.preorder (some j) = [j]) :
    (p.instantiate b []).run f = (⟨some j, [replica b e j]⟩, g) := by
  have hrun : (Edit.copy (some e)).run f = pure (some j, g) := hcopy
  have harg : p.argumentAt? g b [] e = none := by
    unfold argumentAt?
    rw [hparameters]
    cases b.resolve (some e) <;> rfl
  have hsubstitute : (p.substitute b [] (some j) ⟨some j, [replica b e j]⟩ [(e, j)]).run g =
      (⟨some j, [replica b e j]⟩, g) := by
    simp only [substitute, List.foldlM_cons, List.foldlM_nil, bind_pure]
    rw [Edit.run_look_bind, harg]
    rfl
  rw [instantiate, hp, Edit.run_look_bind, StateT.run_bind, hrun, pure_bind, Edit.run_look_bind,
    hsource, htarget]
  exact hsubstitute

def isBareDeclaration (f : Forest) (s body : Slot) : Bool :=
  match f.node? s with
  | some (.function .declaration _ [] t _ _) => t == body
  | _ => false

def isBareCall (f : Forest) (s callee : Slot) : Bool :=
  match f.node? s with
  | some (.call .call t [] _ _) => t == callee
  | _ => false

def isStatementOf (f : Forest) (s expression : Slot) : Bool :=
  match f.node? s with
  | some (.operand .expressionStatement t) => t == expression
  | _ => false

theorem exists_of_isBareDeclaration {s body : Slot} (h : isBareDeclaration f s body = true) :
    ∃ ident isAsync isGenerator,
      f.node? s = some (.function .declaration ident [] body isAsync isGenerator) := by
  unfold isBareDeclaration at h
  split at h
  · rename_i hn
    rw [eq_of_beq h] at hn
    exact ⟨_, _, _, hn⟩
  · cases h

theorem exists_of_isBareCall {s callee : Slot} (h : isBareCall f s callee = true) :
    ∃ isOptional inChain, f.node? s = some (.call .call callee [] isOptional inChain) := by
  unfold isBareCall at h
  split at h
  · rename_i hn
    rw [eq_of_beq h] at hn
    exact ⟨_, _, hn⟩
  · cases h

theorem node?_of_isStatementOf {s expression : Slot} (h : isStatementOf f s expression = true) :
    f.node? s = some (.operand .expressionStatement expression) := by
  unfold isStatementOf at h
  split at h
  · rename_i hn
    rw [hn, eq_of_beq h]
  · cases h

/-- The only call of `function p() { x; } p();` is inlined. -/
theorem exists_inlined_name :
    ∃ p g inlining before call after, Program.parse "function p() \x7b x; \x7d p();" = .ok p ∧
      p.forest.contains (some p.root) = true ∧
      (ofForest p.forest (some p.root)).truncated = false ∧
      p.forest.preorder (some p.root) = before ++ call :: after ∧
      (∀ i ∈ before, isCall p.forest i = false) ∧
      (inlineStatementCall (ofForest p.forest (some p.root))
        (ready p.forest (ofForest p.forest (some p.root))) (some p.root) call).run p.forest =
          (some inlining, g) ∧
      g.contains (some p.root) = true ∧ (ofForest g (some p.root)).truncated = false ∧
      (∀ i ∈ after, isCall g i = false) ∧ ∀ i ∈ g.preorder (some p.root), isCall g i = false := by
  have hfacts : ∃ p ∈ (Program.parse "function p() \x7b x; \x7d p();").toOption, p.root = 8 ∧
      ∃ f, f = p.forest ∧ ∃ f₁, f₁ = (f.copy (some 1)).2 ∧
        ∃ g, g = (f₁.replace (some 6) (some 9)).1 ∧
      (f.contains (some 8) = true ∧
        outline f 8 = .declare false .function "p" 0 4 (.scope .function 4 .done .done) ∧
        f.itinerary openedByProxy (Limits.treeDepth + 1) (.value .read) ⟨programScope, false⟩
            (some 8) =
          [.mark false (some 0), .use 1 false .read "x" 1, .use 0 false .call "p" 5] ∧
        f.preorder (some 8) = [8, 4, 0, 3, 2, 1, 7] ++ 6 :: [5] ∧
        ∀ i ∈ [8, 4, 0, 3, 2, 1, 7], isCall f i = false) ∧
      (isBareDeclaration f (some 4) (some 3) = true ∧
        f.soleExpression? (some 3) = some (some 1) ∧ f.preorder (some 1) = [1] ∧
        f.identifierText? (some 1) = some "x" ∧ f.isReference (some 1) = true) ∧
      (isBareCall f (some 6) (some 5) = true ∧
        isStatementOf f (f.parent (some 6)) (some 6) = true ∧
        f.isAttached (some 6) (some 8) = true) ∧
      ((f.copy (some 1)).1 = some 9 ∧ f₁.preorder (some 9) = [9] ∧
        (f₁.replace (some 6) (some 9)).2 = true) ∧
      g.contains (some 8) = true ∧ (outline g 8).Whole ∧
        .cut ∉ g.itinerary openedByProxy (Limits.treeDepth + 1) (.value .read)
          ⟨programScope, false⟩ (some 8) ∧
        (∀ i ∈ [5], isCall g i = false) ∧ ∀ i ∈ g.preorder (some 8), isCall g i = false := by
    simp only [exists_eq_left]
    decide +kernel
  rcases hfacts with ⟨p, hp, hroot, f, hf, f₁, hf₁, g, hg,
    ⟨hcontains, houtline, hstops, hnodes, hothers⟩,
    ⟨hfunction, hsole, hexpression, hname, hreference⟩, ⟨hcall, hstatement, hattached⟩,
    ⟨hcopy, htarget, hreplace⟩, hcontains', houtline', hcut, hold, hcalls⟩
  have hparse := Program.parse_of_mem_toOption hp
  obtain ⟨forest, root⟩ := p
  obtain rfl : root = 8 := hroot
  obtain rfl : f = forest := hf
  obtain ⟨hbindings, hresolve, hx, hlookup⟩ := tables_of_walks houtline hstops
  have hwhole : (ofForest f (some 8)).truncated = false := by
    refine truncated_ofForest.mpr ⟨houtline ▸ ⟨trivial, trivial⟩, fun h => ?_⟩
    have hnocut : .cut ∉ f.itinerary openedByProxy (Limits.treeDepth + 1) (.value .read)
        ⟨programScope, false⟩ (some 8) := by
      rw [hstops]
      decide
    exact hnocut (cut_mem_itinerary h)
  have hwhole' : (ofForest g (some 8)).truncated = false :=
    truncated_ofForest.mpr ⟨houtline', fun h => hcut (cut_mem_itinerary h)⟩
  rcases exists_of_isBareDeclaration hfunction with ⟨_, _, _, hfunction⟩
  rcases exists_of_isBareCall hcall with ⟨_, _, hcall⟩
  have hready := ready_of_tables hbindings hx hfunction hsole hexpression
    (identifierText?_eq_some_iff.mp hname) hreference
  have hinlined := run_inlineStatementCall
    (inlinableCall?_of_tables hcall (node?_of_isStatementOf hstatement) hattached hresolve hlookup)
    (run_instantiate_of_leaf rfl rfl hexpression (Prod.ext hcopy hf₁.symm) htarget)
    (Prod.ext hg.symm hreplace)
  rw [if_pos rfl] at hinlined
  rw [← hready] at hinlined
  exact ⟨_, g, _, _, 6, _, hparse, hcontains, hwhole, hnodes, hothers, hinlined, hcontains', hwhole',
    hold, hcalls⟩

/-- The call is replaced by the name, which is declared nowhere, and the function is removed. -/
theorem inlineStatementProxies_hygienic_name :
    ∃ p g, Program.parse "function p() \x7b x; \x7d p();" = .ok p ∧
      (inlineStatementProxies (some p.root)).run.run p.forest = (.ok true, g) ∧
      ∃ inlined s, (inlineRounds (some p.root) Limits.rounds).run.run p.forest = (.ok inlined, s) ∧
        (Rewrite.bind (some p.root)).run.run g = (.ok (ofForest g (some p.root)), g) ∧
        Hygienic p.forest g p.root (inlined.flatMap Inlining.replicas) := by
  rcases exists_inlined_name with ⟨p, g, inlining, before, call, after, hparse, hcontains, hwhole,
    hnodes, hothers, hinlined, hcontains', hwhole', hold, hcalls⟩
  have hmap := run_mapM_of_one_call hothers hinlined hold
  rw [← hnodes] at hmap
  have hround := run_inlineRound hcontains hwhole hmap
  have hround' := run_inlineRound hcontains' hwhole' (run_mapM_of_no_calls hcalls)
  have hnone : ∀ calls : List NodeId,
      (calls.map fun _ => (none : Option Inlining)).filterMap id = [] := by simp
  rw [hnone] at hround'
  rw [List.filterMap_append, hnone, List.filterMap_cons_some (f := id) rfl, hnone] at hround
  have hrounds : (inlineRounds (some p.root) (14 + 1 + 1)).run.run p.forest = _ :=
    run_inlineRounds_cons hround (run_inlineRounds_nil hround')
  rcases exists_run_inlineStatementProxies hrounds hcontains' hwhole' with ⟨h, hrun⟩
  exact ⟨p, h, hparse, hrun, inlineStatementProxies_hygienic hparse hrun⟩

end Example

end Rewrite
end Untangle
