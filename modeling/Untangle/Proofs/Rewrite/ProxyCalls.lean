import Untangle.Proofs.Rewrite.ElementProxies
import Untangle.Proofs.Rewrite.Running
import Untangle.Proofs.Rewrite.StatementProxies
import Untangle.Proofs.Tree.Copy
import Untangle.Proofs.Tree.Edits
import Untangle.Proofs.Tree.Slots

/-!
# Runs that replace calls of element proxies

The functions were recognised in the tree of the beginning, and calls are replaced from the
inside out. Only slots that held calls have changed since, so a function whose index has a value
is still the function that was recognised.
-/

namespace Untangle

open Forest
open Relation (ReflTransGen)

variable {f g g' h : Forest} {root call i : NodeId} {s : Slot} {σ : Slot → Slot}

/-!
## Forests with other nodes in place of calls
-/

namespace Forest

/-- The slot holds a call. -/
def HoldsCall (f : Forest) (s : Slot) : Prop :=
  ∃ i, s = some i ∧ Rewrite.isCall f i = true

theorem not_holdsCall {n : Node Slot} (hn : f.node? s = some n)
    (hcall : ∀ callee args isOptional inChain, n ≠ .call .call callee args isOptional inChain) :
    ¬ f.HoldsCall s := by
  rintro ⟨i, rfl, hi⟩
  rw [Rewrite.isCall, satisfies, hn, Option.any_some] at hi
  split at hi
  · exact hcall _ _ _ _ rfl
  · cases hi

/-- `g` has the nodes of `f`, but `σ s` is where `f` has a call `s`. -/
structure CallsExchanged (f g : Forest) (σ : Slot → Slot) : Prop where
  node : ∀ {i n}, f.node? (some i) = some n → g.node? (some i) = some (n.map σ)
  kept : ∀ {s}, ¬ f.HoldsCall s → σ s = s

namespace CallsExchanged

theorem refl (f : Forest) : CallsExchanged f f id :=
  ⟨fun hn => by rw [hn, Node.map_id], fun _ => rfl⟩

theorem node?_slot (h : CallsExchanged f g σ) {n : Node Slot} (hn : f.node? s = some n) :
    g.node? s = some (n.map σ) := by
  cases s with
  | none => cases hn
  | some i => exact h.node hn

/-- One more call is replaced. -/
theorem replace (hx : CallsExchanged f g σ) (hcall : Rewrite.isCall f call = true)
    (hg : g.WellFormed) (hgrown : Extends g g') {p copy : NodeId} {owner : Node Slot}
    (hlink : g.Link call p) (howner : g'.node? (some p) = some owner)
    (hr : Rewired g' h p call (owner.replaceFirst (some call) (some copy)).1 [copy]) :
    CallsExchanged f h fun s => if σ s = some call then some copy else σ s := by
  constructor
  · intro i n hn
    have hgn := hx.node hn
    have hlt := lt_size_of_node? hgn
    have hgn' := (hgrown.node? hlt).trans hgn
    by_cases hi : i = p
    · subst hi
      obtain rfl := Option.some.inj (howner.symm.trans hgn')
      rw [hr.node?_self (lt_size_of_node? howner)]
      congr 1
      apply Node.eq_of_blank_of_slots
      · rw [Node.blank_replaceFirst, Node.blank_map, Node.blank_map]
      · have hnodup := hg.nodup i
        rw [children_of_node? hgn] at hnodup
        rw [Node.slots_replaceFirst, replace_eq_map rfl hnodup, Node.slots_map, Node.slots_map,
          List.map_map]
        rfl
    · rw [hr.node?_of_ne hi, hgn']
      congr 1
      refine Node.map_congr fun s hs => (if_neg fun heq => hi ?_).symm
      refine Link.unique (hg.linked.mpr ?_) hlink
      rw [children_of_node? hgn, mem_childrenOf, Node.slots_map]
      exact heq ▸ List.mem_map_of_mem hs
  · intro s hs
    have hkept := hx.kept hs
    refine (if_neg fun heq => hs ?_).trans hkept
    exact ⟨call, hkept.symm.trans heq, hcall⟩

end CallsExchanged
end Forest

/-!
## Recognised functions
-/

namespace ElementProxy

variable {p : ElementProxy} {binding : Binding} {parameters : List Slot} {code : Slot}
  {isAsync isGenerator : Bool}

section Exchanged

variable (hx : CallsExchanged f g σ)

include hx

theorem identifierText?_exchanged {text : String} (h : f.identifierText? s = some text) :
    g.identifierText? s = some text := by
  rw [identifierText?_eq_some_iff] at h ⊢
  exact hx.node?_slot h

theorem kept_of_identifier {text : String} (h : f.identifierText? s = some text) : σ s = s :=
  hx.kept (not_holdsCall (identifierText?_eq_some_iff.mp h) nofun)

/-- Only expressions without calls have a value. -/
theorem kept_of_indexValue {stands : String → Float → Prop} {x : Float}
    (h : IndexValue g stands s x) : σ s = s := by
  refine hx.kept ?_
  rintro ⟨i, rfl, hi⟩
  rw [Rewrite.isCall, satisfies] at hi
  cases hn : f.node? (some i) with
  | none =>
      rw [hn] at hi
      cases hi
  | some n =>
      have hgn := hx.node hn
      rw [hn, Option.any_some] at hi
      split at hi
      case h_1 => cases h with
        | number hg => cases hgn.symm.trans hg
        | name hg => cases hgn.symm.trans hg
        | operator hg => cases hgn.symm.trans hg
      case h_2 => cases hi

theorem Describes.exchanged (h : p.Describes f parameters code) (hindex : σ p.index = p.index) :
    p.Describes g (parameters.map σ) (σ code) := by
  rcases h with
    ⟨hnames, ⟨statement, access, isOptional, inChain, hcode, hreturn, hn⟩, name, hobject⟩
  have hkeptCode : σ code = code := hx.kept (not_holdsCall hcode nofun)
  have hkeptStatement : σ statement = statement := hx.kept (not_holdsCall hreturn nofun)
  have hkeptAccess : σ access = access := hx.kept (not_holdsCall hn nofun)
  refine ⟨?_, ⟨statement, access, isOptional, inChain, ?_, ?_, ?_⟩, name, ?_⟩
  · refine List.forall₂_map_left_iff.mpr (hnames.imp fun t text ht => ?_)
    rw [kept_of_identifier hx ht]
    exact identifierText?_exchanged hx ht
  · rw [hkeptCode, hx.node?_slot hcode, Node.map_body, List.map_singleton, hkeptStatement]
  · have hg := hx.node?_slot hreturn
    rwa [show (Node.operand .returnStatement access).map σ = .operand .returnStatement (σ access)
      from rfl, hkeptAccess] at hg
  · have hg := hx.node?_slot hn
    rwa [show (Node.access .element p.object p.index isOptional inChain).map σ =
      .access .element (σ p.object) (σ p.index) isOptional inChain from rfl,
      kept_of_identifier hx hobject, hindex] at hg
  · exact identifierText?_exchanged hx hobject

theorem declaredAs_exchanged (h : binding.DeclaredAs f parameters code isAsync isGenerator) :
    binding.DeclaredAs g (parameters.map σ) (σ code) isAsync isGenerator := by
  cases h with
  | ofFunction hkind hn =>
      have hg := hx.node hn
      rw [Node.map_function] at hg
      exact .ofFunction hkind hg
  | @ofVariable target initializer ident _ _ _ _ hkind hn hinit =>
      have hkept : σ initializer = initializer := hx.kept (not_holdsCall hinit nofun)
      have hdeclarator := hx.node hn
      have hfunction := hx.node?_slot hinit
      rw [show (Node.declarator target initializer).map σ = .declarator (σ target) (σ initializer)
        from rfl, hkept] at hdeclarator
      rw [Node.map_function] at hfunction
      exact .ofVariable hkind hdeclarator hfunction

theorem Stands.exchanged (h : p.Stands f binding isAsync isGenerator)
    (hindex : σ p.index = p.index) : p.Stands g binding isAsync isGenerator := by
  rcases h with ⟨hstable, hconstant, parameters, code, hdeclared, hdescribes⟩
  exact ⟨hstable, hconstant, _, _, declaredAs_exchanged hx hdeclared,
    hdescribes.exchanged hx hindex⟩

end Exchanged

end ElementProxy

/-!
## One call
-/

namespace Rewrite

variable {b : Bindings} {proxies : Array (Option ElementProxy)} {element : Slot}

theorem run_inlineProxyCall_none (h : selectedByCall? b proxies s call f = none) :
    (inlineProxyCall b proxies s call).run f = (false, f) := by
  rw [inlineProxyCall, Edit.run_look_bind, h]
  rfl

theorem run_inlineProxyCall_some {copy : Slot} {f' : Forest} {done : Bool}
    (h : selectedByCall? b proxies s call f = some element) (hcopy : f.copy element = (copy, f'))
    (hreplace : f'.replace (some call) copy = (g, done)) :
    (inlineProxyCall b proxies s call).run f = (done, g) := by
  have hrun : (Edit.copy element).run f = pure (copy, f') := hcopy
  have hrun' : (Edit.replace (some call) copy).run f' = pure (done, g) :=
    congrArg Prod.swap hreplace
  rw [inlineProxyCall, Edit.run_look_bind, h]
  dsimp only
  rw [StateT.run_bind, hrun, pure_bind]
  exact hrun'

/-- A call of an element proxy is replaced by a copy of the element that it selects. -/
structure ReplacesProxyCall (b : Bindings) (root : NodeId) (f : Forest) (call : NodeId)
    (g : Forest) : Prop where
  attached : f.Within call root
  replaced : ∃ callee args isOptional inChain k binding p isAsync isGenerator element copy f',
    f.node? (some call) = some (.call .call callee args isOptional inChain) ∧
      b.resolve callee = some k ∧ b.binding? k = some binding ∧
      ElementProxy.Stands p f binding isAsync isGenerator ∧
      p.Selects b f args (some element) ∧
      f.copy (some element) = (some copy, f') ∧ Copied f f f' element copy ∧
      f'.replace (some call) (some copy) = (g, true)

theorem call_of_selectedByCall? (h : selectedByCall? b proxies (some root) call f = some element) :
    f.Within call root ∧ ∃ callee args isOptional inChain k p,
      f.node? (some call) = some (.call .call callee args isOptional inChain) ∧
        b.resolve callee = some k ∧ proxies[k]? = some (some p) ∧
        p.Selects b f args element := by
  unfold selectedByCall? at h
  rcases Option.bind_eq_some_iff.mp h with ⟨_, hattached, h⟩
  refine ⟨within_of_isAttached ((Option.guard_eq_some' _).mp hattached), ?_⟩
  split at h
  case h_1 callee args isOptional inChain hn =>
    rcases Option.bind_eq_some_iff.mp h with ⟨k, hk, h⟩
    rcases Option.bind_eq_some_iff.mp h with ⟨_, hproxy, h⟩
    rcases Option.bind_eq_some_iff.mp h with ⟨p, rfl, h⟩
    exact ⟨callee, args, isOptional, inChain, k, p, hn, hk, hproxy,
      ElementProxy.selects_of_selected? h⟩
  case h_2 => cases h

/-- A call is left alone, or it is replaced; other slots than those of calls stay as they are. -/
theorem inlineProxyCall_cases {f₀ : Forest} (hf : f.WellFormed) (hx : CallsExchanged f₀ f σ)
    (hcall : isCall f₀ call = true) (hroot : call ≠ root) {done : Bool}
    (hrun : (inlineProxyCall b (b.bindings.map (ElementProxy.ofBinding? f₀)) (some root) call).run f
      = (done, g)) :
    done = false ∧ g = f ∨
      done = true ∧ ReplacesProxyCall b root f call g ∧ g.WellFormed ∧
        ∃ τ, CallsExchanged f₀ g τ := by
  cases hselected : selectedByCall? b (b.bindings.map (ElementProxy.ofBinding? f₀)) (some root)
      call f with
  | none =>
      rw [run_inlineProxyCall_none hselected] at hrun
      obtain ⟨rfl, rfl⟩ := Prod.mk.inj hrun
      exact .inl ⟨rfl, rfl⟩
  | some element =>
      obtain ⟨hwithin, callee, args, isOptional, inChain, k, p, hn, hresolve, hproxy, hselects⟩ :=
        call_of_selectedByCall? hselected
      -- The binding was recognised in the first forest; its index has a value in this one.
      rw [Array.getElem?_map, Option.map_eq_some_iff] at hproxy
      obtain ⟨binding, hbinding, hrecognised⟩ := hproxy
      obtain ⟨isAsync, isGenerator, hstands⟩ := ElementProxy.ofBinding?_eq_some_iff.mp hrecognised
      have hstands' : p.Stands f binding isAsync isGenerator := by
        obtain ⟨_, _, _, _, _, _, _, _, hindex, _⟩ := hselects.selected
        exact hstands.exchanged hx (ElementProxy.kept_of_indexValue hx hindex)
      obtain ⟨e, rfl, he⟩ := hselects.exists_node
      obtain ⟨copy, f', hcopy, hcopied⟩ := copied_copy hf he
      obtain ⟨p', hlink, -⟩ : ∃ p', f.Link call p' ∧ f.Within p' root := by
        rcases ReflTransGen.cases_head hwithin with heq | hpath
        · exact absurd heq hroot
        · exact hpath
      have hlink' := hcopied.extends_.link hlink
      have habove : ¬ f'.Within call copy := fun hpath =>
        Nat.not_lt.mpr (hcopied.new call hpath) (lt_size_of_parent hlink)
      obtain ⟨h, owner, hreplace, hr, hex⟩ :=
        rewired_replace hcopied.wellFormed hlink' hcopied.free habove
      rw [run_inlineProxyCall_some hselected hcopy hreplace] at hrun
      obtain ⟨rfl, rfl⟩ := Prod.mk.inj hrun
      refine .inr ⟨rfl, ⟨hwithin, callee, args, isOptional, inChain, k, binding, p, isAsync,
        isGenerator, e, copy, f', hn, hresolve, hbinding, hstands', hselects, hcopy, hcopied,
        hreplace⟩, ?_, _, hx.replace hcall hf hcopied.extends_ hlink hex.owner hr⟩
      have hmem : some call ∈ owner.slots := by
        rw [← mem_childrenOf, ← children_of_node? hex.owner]
        exact hcopied.wellFormed.linked.mp hlink'
      exact hr.wellFormed hcopied.wellFormed hex (exchanged_replaceFirst hmem _) rfl

/-!
## Runs
-/

/-- Calls are replaced one after another. -/
inductive ReplacesProxyCalls (b : Bindings) (root : NodeId) : Forest → List NodeId → Forest → Prop
  | done (f : Forest) : ReplacesProxyCalls b root f [] f
  | next {f g h call calls} (first : ReplacesProxyCall b root f call g)
      (rest : ReplacesProxyCalls b root g calls h) : ReplacesProxyCalls b root f (call :: calls) h

theorem run_changeAll_inlineProxyCall {f₀ : Forest} {calls : List NodeId} (hf : f.WellFormed)
    (hx : CallsExchanged f₀ f σ) (hcalls : ∀ call ∈ calls, isCall f₀ call = true ∧ call ≠ root)
    {changed : Bool}
    (hrun : (Edit.changeAll (inlineProxyCall b (b.bindings.map (ElementProxy.ofBinding? f₀))
      (some root)) calls).run f = (changed, g)) :
    ∃ replaced, ReplacesProxyCalls b root f replaced g ∧ replaced.Sublist calls ∧
      changed = !replaced.isEmpty ∧ g.WellFormed := by
  induction calls generalizing f σ changed with
  | nil =>
      obtain ⟨rfl, rfl⟩ := Prod.mk.inj hrun
      exact ⟨[], .done f, .slnil, rfl, hf⟩
  | cons call calls ih =>
      rw [List.forall_mem_cons] at hcalls
      rw [Edit.run_changeAll_cons] at hrun
      rcases hfirst : (inlineProxyCall b (b.bindings.map (ElementProxy.ofBinding? f₀))
        (some root) call).run f with ⟨done, f'⟩
      rw [hfirst] at hrun
      obtain ⟨rfl, hrest⟩ := Prod.mk.inj hrun
      rcases inlineProxyCall_cases hf hx hcalls.1.1 hcalls.1.2 hfirst with
        ⟨rfl, rfl⟩ | ⟨rfl, hreplaces, hf', τ, hx'⟩
      · obtain ⟨replaced, hreplaced, hsublist, hchanged, hg⟩ :=
          ih hf hx hcalls.2 (Prod.ext rfl hrest)
        exact ⟨replaced, hreplaced, hsublist.cons _, hchanged, hg⟩
      · obtain ⟨replaced, hreplaced, hsublist, -, hg⟩ :=
          ih hf' hx' hcalls.2 (Prod.ext rfl hrest)
        exact ⟨call :: replaced, .next hreplaces hreplaced, hsublist.cons_cons _, rfl, hg⟩

/-- Nothing but a tree that is too deep makes the rewrite fail. -/
theorem exists_run_removeProxyFunctions (hroot : f.contains s = true)
    (hwhole : (Bindings.ofForest f s).truncated = false) :
    ∃ changed g, (removeProxyFunctions s).run.run f = (.ok changed, g) :=
  ⟨_, _, (run_bind_ok (run_bind_of_whole hroot hwhole)).trans
    ((run_bind_ok (run_get f)).trans (run_lift _ _))⟩

/-- Whatever is changed is a call of a function that is declared once and never written, whose
body is the return of one element and whose parameters are names, with one number for each of
them; it is replaced by a copy of the element at the value of the index. Nothing is said of
whether the function is asynchronous or a generator: it is not asked. -/
theorem removeProxyFunctions_replaces (hf : f.HasProgram root) {changed : Bool}
    (hrun : (removeProxyFunctions (some root)).run.run f = (.ok changed, g)) :
    ∃ calls, ReplacesProxyCalls (Bindings.ofForest f (some root)) root f calls g ∧
      calls.Sublist (f.preorder (some root)).reverse ∧ changed = !calls.isEmpty := by
  rcases run_bind_eq_ok.mp hrun with ⟨b, f', hbind, hrest⟩
  obtain ⟨rfl, rfl, -⟩ := run_bind_tree hbind
  rw [run_bind_ok (run_get f')] at hrest
  dsimp only at hrest
  rw [run_lift] at hrest
  obtain ⟨hanswer, hforest⟩ := Prod.mk.inj hrest
  obtain ⟨statements, hroot⟩ := hf.node
  have hcalls : ∀ call ∈ ((f'.preorder (some root)).filter (isCall f')).reverse,
      isCall f' call = true ∧ call ≠ root := by
    intro call hcall
    have hsite := (List.mem_filter.mp (List.mem_reverse.mp hcall)).2
    refine ⟨hsite, ?_⟩
    rintro rfl
    exact not_holdsCall hroot nofun ⟨call, rfl, hsite⟩
  obtain ⟨replaced, hreplaced, hsublist, hchanged, -⟩ := run_changeAll_inlineProxyCall
    hf.wellFormed (CallsExchanged.refl f') hcalls (Prod.ext (Except.ok.inj hanswer) hforest)
  exact ⟨replaced, hreplaced, hsublist.trans (List.filter_sublist.reverse), hchanged⟩

/-- The function of this program is a generator. -/
theorem removeProxyFunctions_replaces_generator :
    ∃ p changed g,
      Program.parse "var a = ['x']; function* p(i) \x7b return a[i]; \x7d p(0);" = .ok p ∧
        p.forest.HasProgram p.root ∧
        (removeProxyFunctions (some p.root)).run.run p.forest = (.ok changed, g) ∧
        ∃ calls, ReplacesProxyCalls (Bindings.ofForest p.forest (some p.root)) p.root p.forest
            calls g ∧
          calls.Sublist (p.forest.preorder (some p.root)).reverse ∧ changed = !calls.isEmpty := by
  have hfacts : ∃ p ∈ (Program.parse
        "var a = ['x']; function* p(i) \x7b return a[i]; \x7d p(0);").toOption,
      p.forest.contains (some p.root) = true ∧ (Bindings.outline p.forest p.root).Whole ∧
        .cut ∉ p.forest.itinerary (fun _ => none) (Limits.treeDepth + 1) (.value .read)
          ⟨Bindings.programScope, false⟩ (some p.root) := by
    decide +kernel
  rcases hfacts with ⟨p, hp, hroot, houtline, hcut⟩
  have hparse := Program.parse_of_mem_toOption hp
  have hprogram := Program.hasProgram_parse hparse
  have hwhole := Bindings.truncated_ofForest.mpr
    ⟨houtline, fun h => hcut (cut_mem_itinerary h)⟩
  obtain ⟨changed, g, hrun⟩ := exists_run_removeProxyFunctions hroot hwhole
  exact ⟨p, changed, g, hparse, hprogram, hrun, removeProxyFunctions_replaces hprogram hrun⟩

end Rewrite
end Untangle
