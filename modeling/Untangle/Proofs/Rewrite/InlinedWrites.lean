import Untangle.Proofs.Rewrite.ElementProxies
import Untangle.Proofs.Rewrite.Hygiene
import Untangle.Proofs.Rewrite.Narrowing

/-!
# What an inlined expression writes

No parameter of a proxy is written, so that no argument comes to stand where something is written.
The names that an inlined expression writes are those that the expression of the function writes.
-/

namespace Untangle

open Forest
open Relation (ReflTransGen)

/-- At `k`, in the expression, the name is written: it is assigned to, updated or the target of a
pattern. -/
structure Forest.WritesAt (f : Forest) (e k : NodeId) (name : String) : Prop where
  node : f.node? (some k) = some (.name .identifier name)
  reached : ∃ p, ReflTransGen (Next f) (.value .read, e) (p, k) ∧ p.use? = some .write

/-- The name is written in the expression. -/
def Forest.Writes (f : Forest) (e : NodeId) (name : String) : Prop :=
  ∃ k, f.WritesAt e k name

namespace StatementProxy

variable {s g h : Forest} {b : Bindings} {arg : NodeId → Option Slot} {log : List Replica}
  {source : NodeId → NodeId} {root e j k X Y call : NodeId} {p : StatementProxy} {callee : Slot}
  {args : List Slot} {name text : String} {q : Purpose}

namespace Repeats

variable (hr : Repeats s h b arg log source e j)

include hr

/-- The walk comes to a name of an instance for what it came to the source for. -/
theorem reflect_name (hh : h.WellFormed) (hpath : ReflTransGen (Next h) (.value .read, j) (q, k))
    (hname : h.node? (some k) = some (.name .identifier name)) :
    ReflTransGen (Next s) (.value .read, e) (q, source k) := by
  rcases ReflTransGen.cases_tail hpath with heq | ⟨y, hbefore, hnext⟩
  · obtain ⟨rfl, rfl⟩ := Prod.mk.inj heq
    rw [hr.root]
  · cases hnext with
    | @again _ n p _ hn hq =>
        obtain rfl := Option.some.inj (hname.symm.trans hn)
        cases p <;> cases hq
    | @child i _ n p errand hn hagain he hc =>
        rcases hr.node i (within_of_path hh hbefore) with ⟨m, hm, hpart⟩
        obtain rfl := Option.some.inj (hn.symm.trans hm)
        cases hpart with
        | copy hsource _ _ =>
            refine .tail (hr.reflect hh hbefore ⟨n, hn, hsource⟩) ?_
            have he' : errand.map source ∈ (n.map (Option.map source)).errands p := by
              rw [Node.errands_map]
              exact List.mem_map_of_mem he
            have hnext : Next s (p, source i) (errand.purpose, source k) :=
              .child (e := errand.map source) hsource (Node.again?_map.trans hagain) he'
                (congrArg (Option.map source) hc)
            exact hnext
        | argument _ _ hslots _ =>
            have hmem := Node.mem_slots_of_errand he
            rw [hslots] at hmem
            cases hmem

/-- If no parameter is written, then the same names are written. -/
theorem writes_iff (hh : h.WellFormed)
    (hconstant : ∀ k name, arg k ≠ none → ¬ s.WritesAt e k name) :
    h.Writes j name ↔ s.Writes e name := by
  constructor
  · rintro ⟨k, hname, q, hpath, hwrite⟩
    have hbelow := within_of_path hh hpath
    have hpath' := hr.reflect_name hh hpath hname
    rcases hr.node k hbelow with ⟨m, hm, hpart⟩
    obtain rfl := Option.some.inj (hname.symm.trans hm)
    cases hpart with
    | copy hsource _ _ => exact ⟨source k, hsource, q, hpath', hwrite⟩
    | argument harg _ _ _ =>
        have hparameter : arg (source k) ≠ none := by
          rw [harg]
          nofun
        rcases hr.names _ (hr.below k hbelow) hparameter with ⟨text, htext⟩
        exact absurd ⟨htext, q, hpath', hwrite⟩ (hconstant _ text hparameter)
  · rintro ⟨k, hname, q, hpath, hwrite⟩
    rcases hr.follow hh hpath with ⟨k', hk', rfl, hpath'⟩
    refine ⟨k', ?_, q, hpath', hwrite⟩
    rcases hr.node k' hk' with ⟨m, hm, hpart⟩
    cases hpart with
    | copy hsource _ _ =>
        have hrevision : Revision s s none source m (m.map (Option.map source)) := .mapped m
        have htext := Revised.identifierText?_of_revision hrevision
        rw [Option.some.inj (hsource.symm.trans hname)] at htext
        rw [hm, Node.identifierText?_eq_some_iff.mp htext.symm]
    | argument harg _ _ _ =>
        have hparameter : arg (source k') ≠ none := by
          rw [harg]
          nofun
        exact absurd ⟨hname, q, hpath, hwrite⟩ (hconstant _ name hparameter)

end Repeats

theorem hasWrites_eq_false_of_parameter? {slot : Slot} {i : BindingId}
    (hparameter : parameter? b slot = some i) :
    ∃ binding, b.binding? i = some binding ∧ binding.hasWrites = false := by
  unfold parameter? at hparameter
  rcases Option.bind_eq_some_iff.mp hparameter with ⟨i', _, hrest⟩
  rcases Option.bind_eq_some_iff.mp hrest with ⟨binding, hbinding, hrest⟩
  rcases Option.bind_eq_some_iff.mp hrest with ⟨_, hguard, hi⟩
  obtain rfl := Option.some.inj hi
  have hclean := (Option.guard_eq_some' _).mp hguard
  rw [Bool.and_eq_true, Bool.not_eq_true'] at hclean
  exact ⟨binding, hbinding, hclean.2⟩

/-- A parameter of a proxy is not written. -/
theorem Recognised.not_writesAt {own i : BindingId} {binding : Binding}
    (hrecognised : Recognised s (Bindings.ofForest s (some root)) own binding p)
    (hs : s.HasProgram root) (hwhole : (Bindings.ofForest s (some root)).truncated = false)
    (he : Hosted s root Y e)
    (hi : (Bindings.ofForest s (some root)).resolve (some k) = some i) (hmem : i ∈ p.parameters) :
    ¬ s.WritesAt e k name := by
  rintro ⟨hname, q, hpath, hwrite⟩
  have hbelow := within_of_path hs.wellFormed hpath
  -- The walk comes to the expression, since it comes to the parameter.
  rcases he.used_of_bound hs hwhole hbelow (by rw [hi]; nofun) with ⟨kind, text, hused⟩
  rcases hused.reached with ⟨q', hreached, _⟩
  rcases (reached_through (x := (q', k)) hs.wellFormed he.plain he.link he.statement hs.parent
    hreached hbelow).1 with ⟨kind', hstatement⟩
  have hwritten : Used s root .write name k :=
    ⟨hname, q, (reached_expression he.statement hstatement).trans hpath, hwrite⟩
  rcases Bindings.referredBy_of_used hs hwhole hwritten hi with ⟨parameter, hparameter, hr⟩
  rcases hrecognised.node with ⟨_, parameters, _, _, _, _, _, hparameters⟩
  rcases List.getElem_of_mem hmem with ⟨position, hposition, rfl⟩
  have hslots := mapM_eq_some_iff.mp hparameters
  have hslot := hslots.get (hslots.length_eq.symm ▸ hposition) hposition
  rcases hasWrites_eq_false_of_parameter? hslot with ⟨parameter', hparameter', hclean⟩
  obtain rfl := Option.some.inj (hparameter.symm.trans hparameter')
  have hwrites : parameter.hasWrites = true := Array.any_eq_true'.mpr ⟨_, hr, rfl⟩
  cases hclean.symm.trans hwrites

/-- An instance writes the names that the expression of the function writes. -/
theorem CallInlined.writes_iff {inlining : Rewrite.Inlining}
    (hx : CallInlined s g h root call inlining p X Y e j callee args source)
    (hs : s.HasProgram root) (hwhole : (Bindings.ofForest s (some root)).truncated = false) :
    h.Writes j name ↔ s.Writes e name := by
  rcases hx.recognised with ⟨own, binding, _, _, hrecognised⟩
  refine hx.inlined.repeats.writes_iff hx.inlined.program.wellFormed fun k name harg => ?_
  cases hi : (Bindings.ofForest s (some root)).resolve (some k) with
  | none =>
      refine absurd ?_ harg
      rw [argumentAt?, hi]
      rfl
  | some i =>
      refine hrecognised.not_writesAt hs hwhole hx.host hi ?_
      by_contra hno
      refine harg ?_
      rw [argumentAt?, hi, Option.bind_eq_bind, Option.bind_some,
        List.idxOf?_eq_none_iff.mpr hno]
      rfl

end StatementProxy

/-!
## Runs
-/

namespace Rewrite

open Bindings StatementProxy

variable {f s g h : Forest} {root call : NodeId} {inlining : Inlining} {args : List Slot}
  {e j : NodeId} {isAsync isGenerator : Bool}

/-- What a round that begins with `s` does to a node. -/
abbrev tryCall (s : Forest) (root : NodeId) : NodeId → Edit (Option Inlining) :=
  inlineStatementCall (ofForest s (some root)) (ready s (ofForest s (some root))) (some root)

/-- A run from `f` comes to the node in `g`, in a round that began with `s`. -/
structure ComesTo (f s g : Forest) (root call : NodeId) : Prop where
  rounds : ∃ n earlier, (inlineRounds (some root) n).run.run f = (.ok earlier, s)
  whole : (ofForest s (some root)).truncated = false
  calls : ∃ before after results, s.preorder (some root) = before ++ call :: after ∧
    (before.mapM (tryCall s root)).run s = (results, g)

/-- In a round that began with `s`, a call of the function whose expression is `e` has made way for
the expression `j`. -/
structure InlinesCall (s g h : Forest) (root call : NodeId) (inlining : Inlining)
    (args : List Slot) (isAsync isGenerator : Bool) (e j : NodeId) : Prop where
  node : ∃ callee isOptional inChain own binding,
    g.node? (some call) = some (.call .call callee args isOptional inChain) ∧
      (ofForest s (some root)).resolve callee = some own ∧
      (ofForest s (some root)).binding? own = some binding ∧
      binding.declaration = inlining.declaration
  function : ∃ ident parameters code,
    s.node? (some inlining.declaration) =
        some (.function .declaration ident parameters code isAsync isGenerator) ∧
      s.soleExpression? code = some (some e)
  statement : ∃ X, g.node? (some X) = some (.operand .expressionStatement (some call)) ∧
    h.node? (some X) = some (.operand .expressionStatement (some j))

/-- The function is an ordinary one, and no name that is passed to it is written in the expression
that has taken the place of the call. -/
structure Harmless (s g h : Forest) (inlining : Inlining) (args : List Slot) (j : NodeId) :
    Prop where
  ordinary : ∃ ident parameters code, s.node? (some inlining.declaration) =
    some (.function .declaration ident parameters code false false)
  unwritten : ∀ a name, some a ∈ args → g.identifierText? (some a) = some name → ¬ h.Writes j name

theorem InlinesCall.of_callInlined {p : StatementProxy} {X Y : NodeId} {callee : Slot}
    {source : NodeId → NodeId}
    (hx : CallInlined s g h root call inlining p X Y e j callee args source) :
    ∃ isAsync isGenerator, InlinesCall s g h root call inlining args isAsync isGenerator e j := by
  rcases hx.recognised with ⟨own, binding, hown, hbinding, hrecognised⟩
  rcases hrecognised.node with
    ⟨ident, parameters, code, isAsync, isGenerator, hfunction, hexpression, _⟩
  rcases hx.node with ⟨isOptional, inChain, hnode⟩
  refine ⟨isAsync, isGenerator, ?_, ?_, X, hx.statement, hx.inlined.statement⟩
  · exact ⟨callee, isOptional, inChain, own, binding, hnode, hown, hbinding,
      (hx.declaration.trans hrecognised.declaration).symm⟩
  · rw [hx.declaration]
    exact ⟨ident, parameters, code, hfunction, hexpression.trans (congrArg some hx.expression)⟩

theorem InlinesCall.harmless_iff
    (hx : InlinesCall s g h root call inlining args isAsync isGenerator e j)
    (hwrites : ∀ name, h.Writes j name ↔ s.Writes e name) :
    Harmless s g h inlining args j ↔ isAsync = false ∧ isGenerator = false ∧
      ∀ a name, some a ∈ args → g.identifierText? (some a) = some name → ¬ s.Writes e name := by
  rcases hx.function with ⟨ident, parameters, code, hfunction, _⟩
  constructor
  · intro hharmless
    rcases hharmless.ordinary with ⟨_, _, _, hordinary⟩
    obtain ⟨_, _, _, _, rfl, rfl⟩ :=
      Node.function.inj (Option.some.inj (hfunction.symm.trans hordinary))
    exact ⟨rfl, rfl, fun a name ha hname hwrite =>
      hharmless.unwritten a name ha hname ((hwrites name).mpr hwrite)⟩
  · rintro ⟨rfl, rfl, hunwritten⟩
    exact ⟨⟨ident, parameters, code, hfunction⟩, fun a name ha hname hwrite =>
      hunwritten a name ha hname ((hwrites name).mp hwrite)⟩

/-- A call that is inlined in a run is harmless exactly if the function is an ordinary one and does
not itself write a name that is passed to it: no argument comes to stand where something is
written. -/
theorem inlinedCall_harmless_iff {source : String} {prog : Program}
    (hparse : Program.parse source = .ok prog) (hcomes : ComesTo prog.forest s g prog.root call)
    (hrun : (tryCall s prog.root call).run g = (some inlining, h)) :
    ∃ args isAsync isGenerator e j,
      InlinesCall s g h prog.root call inlining args isAsync isGenerator e j ∧
        (Harmless s g h inlining args j ↔ isAsync = false ∧ isGenerator = false ∧
          ∀ a name, some a ∈ args → g.identifierText? (some a) = some name →
            ¬ s.Writes e name) := by
  have hf := Program.hasProgram_parse hparse
  have hlayered := (Program.layered_parse hparse).below prog.root
  rcases hcomes.rounds with ⟨n, earlier, hrounds⟩
  have hbegun := (inlines_rounds hf hlayered hrounds).2.replaced
  have hs := hbegun.program
  rcases hcomes.calls with ⟨before, after, results, hcalls, hbefore⟩
  have hlt : ∀ i ∈ before ++ call :: after, i < s.size := fun i hi =>
    lt_size_of_within ((hs.wellFormed.mem_preorder hs.lt_size).mp (hcalls ▸ hi)) hs.lt_size
  rcases (CallsReplaced.refl hs hbegun.layered).mapM_inlineStatementCall hs hbegun.layered
    hcomes.whole fun i hi => hlt i (List.mem_append_left _ hi) with
    ⟨results', g', hbefore', hreplaced, _⟩
  obtain ⟨rfl, rfl⟩ := Prod.mk.inj (hbefore.symm.trans hbefore')
  have hcall : call < s.size := hlt call (List.mem_append_right _ List.mem_cons_self)
  rcases hreplaced.exists_callInlined hs hbegun.layered hcomes.whole hcall hrun with
    ⟨hnone, _⟩ | ⟨inlining', p, X, Y, e, j, callee, args, source, heq, hx⟩
  · cases hnone
  · obtain rfl := Option.some.inj heq
    rcases InlinesCall.of_callInlined hx with ⟨isAsync, isGenerator, hinlines⟩
    exact ⟨args, isAsync, isGenerator, e, j, hinlines,
      hinlines.harmless_iff fun name => hx.writes_iff hs hcomes.whole⟩

theorem inlinedCall_harmless_iff_name :
    ∃ p s g h call inlining, Program.parse "function p() \x7b x; \x7d p();" = .ok p ∧
      ComesTo p.forest s g p.root call ∧ (tryCall s p.root call).run g = (some inlining, h) ∧
      ∃ args isAsync isGenerator e j,
        InlinesCall s g h p.root call inlining args isAsync isGenerator e j ∧
          (Harmless s g h inlining args j ↔ isAsync = false ∧ isGenerator = false ∧
            ∀ a name, some a ∈ args → g.identifierText? (some a) = some name →
              ¬ s.Writes e name) := by
  rcases exists_inlined_name with
    ⟨p, h, inlining, before, call, after, hparse, _, hwhole, hnodes, hothers, hinlined, _⟩
  have hcomes : ComesTo p.forest p.forest p.forest p.root call :=
    ⟨⟨0, [], rfl⟩, hwhole, before, after, _, hnodes, run_mapM_of_no_calls hothers⟩
  exact ⟨p, p.forest, p.forest, h, call, inlining, hparse, hcomes, hinlined,
    inlinedCall_harmless_iff hparse hcomes hinlined⟩

end Rewrite
end Untangle
