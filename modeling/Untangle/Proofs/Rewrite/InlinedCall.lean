import Untangle.Proofs.Rewrite.ReplacedCalls
import Untangle.Proofs.Tree.Graft

/-!
# One call is replaced

The expression of a call statement makes way for an instance of the proxy. Both declare nothing,
so that every name outside keeps its meaning, and the walk goes through the instance as it goes
through the expression of the proxy, so that a name in the instance stands for what the name it
was copied from stood for.
-/

namespace Untangle

open Forest
open Relation (ReflTransGen)

/-!
## Plain expressions make way for plain expressions
-/

namespace Forest.Graft

variable {g g' h : Forest} {root old X j : NodeId}

section Plain

variable (hx : Graft g g' h old X j) (hg : g.HasProgram root)
  (hX : g.node? (some X) = some (.operand .expressionStatement (some old)))

include hx hg

theorem old_ne_root : old ≠ root := by
  rintro rfl
  cases hg.parent.symm.trans hx.linked

include hX

theorem hasProgram : h.HasProgram root := by
  rcases hg.node with ⟨statements, hn⟩
  have hne : root ≠ X := by
    rintro rfl
    cases hn.symm.trans hX
  refine ⟨hx.wellFormed, ?_, statements, (hx.node?_old (lt_size_of_node? hn) hne).trans hn⟩
  rw [hx.parent_old (lt_size_of_node? hn) (hx.old_ne_root hg).symm]
  exact hg.parent

variable (hold : g.Plain old) (hj : h.Plain j)

include hold hj

theorem kept : Kept g h root none id := by
  refine ⟨⟨?_, fun hne => absurd rfl hne, nofun⟩, fun hne => absurd rfl hne, ?_⟩
  · intro i n hn
    by_cases hi : i = X
    · subst hi
      obtain rfl := Option.some.inj (hX.symm.trans hn)
      refine ⟨_, hx.statement hX, .expression rfl fun depth => ?_⟩
      exact (Sketch.same_of_plain hg.wellFormed hold depth).trans
        (Sketch.same_of_plain hx.wellFormed hj depth).symm
    · exact ⟨n, (hx.node?_old (lt_size_of_node? hn) hi).trans hn, .same n⟩
  · intro i hi hlt hne
    refine hx.parent_old hlt ?_
    rintro rfl
    exact hx.old_not_within (hx.old_ne_root hg) hi

theorem layeredBelow (hlayered : g.LayeredBelow root) : h.LayeredBelow root := by
  have hroot : root < g.size := by
    rcases hg.node with ⟨statements, hn⟩
    exact lt_size_of_node? hn
  have hinner : ∀ {k}, h.Within k j → h.Inner k := by
    intro k hk
    rcases hj k hk with ⟨n, hn, hplain⟩
    refine ⟨n, hn, ?_⟩
    simp only [Node.isPlain, Bool.and_eq_true, Bool.not_eq_true'] at hplain
    exact hplain.1
  intro q n c hq hn hlevel hc
  have hlink : h.Link c q := by
    apply hx.wellFormed.linked.mpr
    rwa [children_of_node? hn]
  by_cases hqX : q = X
  · subst hqX
    obtain rfl := Option.some.inj (hn.symm.trans (hx.statement hX))
    obtain rfl := Option.some.inj (List.mem_singleton.mp (mem_childrenOf.mp hc))
    exact hinner .refl
  · by_cases hlt : q < g.size
    · have hnode : g.node? (some q) = some n := (hx.node?_old hlt hqX).symm.trans hn
      have hwithin := (hx.kept hg hX hold hj).carried.within hg.wellFormed hq hlt
      rcases hlayered hwithin hnode hlevel hc with ⟨m, hm, hmlevel⟩
      have hcX : c ≠ X := by
        rintro rfl
        obtain rfl := Option.some.inj (hm.symm.trans hX)
        cases hmlevel
      exact ⟨m, (hx.node?_old (lt_size_of_node? hm) hcX).trans hm, hmlevel⟩
    · have hbelow := hx.within_of_new hg.wellFormed hroot hq (Nat.not_lt.mp hlt)
      exact hinner (.head hlink (hx.within_new.mpr hbelow))

end Plain

end Forest.Graft

/-!
## Walks through an instance
-/

namespace StatementProxy

variable {s h : Forest} {b : Bindings} {arg : NodeId → Option Slot} {log : List Replica}
  {source : NodeId → NodeId} {e j k a : NodeId} {m n : Node Slot}

/-- The tree at `j` repeats the expression `e` with arguments in the places of parameters. -/
structure Repeats (s h : Forest) (b : Bindings) (arg : NodeId → Option Slot) (log : List Replica)
    (source : NodeId → NodeId) (e j : NodeId) : Prop where
  root : source j = e
  below : ∀ k, h.Within k j → s.Within (source k) e
  node : ∀ k, h.Within k j → ∃ m, h.node? (some k) = some m ∧ Part s b arg log [] source k m
  injective : ∀ k k', h.Within k j → h.Within k' j → source k = source k' → k = k'
  /-- Only names make way for arguments. -/
  names : ∀ i, s.Within i e → arg i ≠ none → ∃ text,
    s.node? (some i) = some (.name .identifier text)

namespace Repeats

variable (hr : Repeats s h b arg log source e j)

include hr

/-- An instance is as plain as the expression and the arguments. -/
theorem plain (he : s.Plain e) (hargs : ∀ i a, arg i = some (some a) →
    ∃ n, s.node? (some a) = some n ∧ n.isPlain = true) : h.Plain j := by
  intro k hk
  rcases hr.node k hk with ⟨m, hm, hpart⟩
  refine ⟨m, hm, ?_⟩
  cases hpart with
  | copy hsource _ _ =>
      rcases he _ (hr.below k hk) with ⟨n, hn, hplain⟩
      obtain rfl := Option.some.inj (hsource.symm.trans hn)
      rwa [Node.isPlain_map] at hplain
  | argument harg hnode _ _ =>
      rcases hargs _ _ harg with ⟨n, hn, hplain⟩
      exact Option.some.inj (hnode.symm.trans hn) ▸ hplain

/-- Where the walk goes on inside an instance it went on in the expression. -/
theorem reflect (hh : h.WellFormed) {x : Position}
    (hpath : ReflTransGen (Next h) (.value .read, j) x)
    (hcopy : ∃ m, h.node? (some x.2) = some m ∧
      s.node? (some (source x.2)) = some (m.map (Option.map source))) :
    ReflTransGen (Next s) (.value .read, e) (x.1, source x.2) := by
  induction hpath with
  | refl => rw [hr.root]
  | tail hbefore hnext ih =>
      cases hnext with
      | @again i n p q hn hq =>
          refine .tail (ih hcopy) ?_
          rcases hcopy with ⟨m, hm, hsource⟩
          obtain rfl := Option.some.inj (hn.symm.trans hm)
          exact .again hsource (Node.again?_map.trans hq)
      | @child i c n p errand hn hagain he hc =>
          have hcopied : s.node? (some (source i)) = some (n.map (Option.map source)) := by
            rcases hr.node i (within_of_path hh hbefore) with ⟨m, hm, hpart⟩
            obtain rfl := Option.some.inj (hn.symm.trans hm)
            cases hpart with
            | copy hsource _ _ => exact hsource
            | argument _ _ hslots _ =>
                have hmem := Node.mem_slots_of_errand he
                rw [hslots] at hmem
                cases hmem
          refine .tail (ih ⟨n, hn, hcopied⟩) ?_
          have he' : errand.map source ∈ (n.map (Option.map source)).errands p := by
            rw [Node.errands_map]
            exact List.mem_map_of_mem he
          have hnext : Next s (p, source i) (errand.purpose, source c) :=
            .child (e := errand.map source) hcopied (Node.again?_map.trans hagain) he'
              (congrArg (Option.map source) hc)
          exact hnext

/-- Where the walk goes on in the expression it goes on inside the instance. -/
theorem follow (hh : h.WellFormed) {y : Position}
    (hpath : ReflTransGen (Next s) (.value .read, e) y) :
    ∃ k, h.Within k j ∧ source k = y.2 ∧ ReflTransGen (Next h) (.value .read, j) (y.1, k) := by
  induction hpath with
  | refl => exact ⟨j, .refl, hr.root, .refl⟩
  | tail hbefore hnext ih =>
      rcases ih with ⟨k, hk, hsource, hpath⟩
      rcases hr.node k hk with ⟨m, hm, hpart⟩
      have hbelow := hr.below k hk
      have hname : arg (source k) ≠ none → ∃ text,
          s.node? (some (source k)) = some (.name .identifier text) := hr.names _ hbelow
      cases hnext with
      | @again i n p q hn hq =>
          obtain rfl : source k = i := hsource
          cases hpart with
          | copy hcopied _ _ =>
              obtain rfl := Option.some.inj (hn.symm.trans hcopied)
              exact ⟨k, hk, rfl, .tail hpath (.again hm (Node.again?_map.symm.trans hq))⟩
          | argument harg _ _ _ =>
              rcases hname (by rw [harg]; nofun) with ⟨text, htext⟩
              obtain rfl := Option.some.inj (hn.symm.trans htext)
              cases p <;> cases hq
      | @child i c n p errand hn hagain he hc =>
          obtain rfl : source k = i := hsource
          cases hpart with
          | copy hcopied _ _ =>
              obtain rfl := Option.some.inj (hn.symm.trans hcopied)
              rw [Node.errands_map] at he
              rcases List.mem_map.mp he with ⟨errand', he', rfl⟩
              rcases Option.map_eq_some_iff.mp hc with ⟨k', hk', hsource'⟩
              have hnext : Next h (p, k) (errand'.purpose, k') :=
                .child hm (Node.again?_map.symm.trans hagain) he' hk'
              exact ⟨k', .head (hh.link_of_errand hm he' hk') hk, hsource', .tail hpath hnext⟩
          | argument harg _ _ _ =>
              rcases hname (by rw [harg]; nofun) with ⟨text, htext⟩
              obtain rfl := Option.some.inj (hn.symm.trans htext)
              cases p <;> cases he

end Repeats

/-!
## What the names of an instance stand for
-/

/-- In `h`, the call of `s` has been replaced by an instance of the proxy. -/
structure Inlined (p : StatementProxy) (s h : Forest) (root X e j : NodeId) (callee : Slot)
    (args : List Slot) (arg : NodeId → Option Slot) (log : List Replica)
    (source : NodeId → NodeId) : Prop where
  program : h.HasProgram root
  kept : Kept s h root none id
  within : h.Within X root
  link : h.Link j X
  statement : h.node? (some X) = some (.operand .expressionStatement (some j))
  plain : h.Plain j
  repeats : Repeats s h (Bindings.ofForest s (some root)) arg log source e j
  free : ∀ i text, s.Within i e → s.node? (some i) = some (.name .identifier text) →
    s.isReference (some i) = true → arg i = none →
    (text, (Bindings.ofForest s (some root)).resolve (some i)) ∈ p.freeNames
  arguments : ∀ i a, s.Within i e → arg i = some (some a) → some a ∈ args
  bound : ∀ i, s.Within i e → arg i ≠ none → ∃ kind name, Used s root kind name i

namespace Inlined

variable {p : StatementProxy} {root call X Y x : NodeId} {callee : Slot} {args : List Slot}
  {kind : ReferenceKind} {name : String}

theorem opensScope_of_plain (hn : n.isPlain = true) : n.opensScope = false := by
  cases n with
  | body form _ => cases form <;> cases hn
  | function _ _ _ _ _ _ | classLike _ _ _ _ | forLoop _ _ _ _ | iteration _ _ _ _ _
  | switch _ _ | catchClause _ _ => simp [Node.isPlain, Node.surroundsStatements] at hn
  | _ => rfl

section Names

variable (hi : Inlined p s h root X e j callee args arg log source) (hs : s.HasProgram root)
  (hwhole : (Bindings.ofForest s (some root)).truncated = false)
  (hsite : CallSite p s root call X callee args) (he : Hosted s root Y e)

include hi

/-- Names of the instance that are not used stand for nothing. -/
theorem denotes_none (hk : h.Within k j) (hnot : ∀ kind name, ¬ Used h root kind name k) :
    Bindings.Denotes h root k none := by
  have hdecl := not_declares_of_plain hi.program.wellFormed hi.plain hi.link hi.statement hk
  have hnames : k ∉ (Bindings.outline h root).names := fun hmem =>
    hdecl (((Sketch.entitled_ofDepth h _).node (some root)).declares k hmem)
  have hnone : (Bindings.chart h root).named k = none := Outline.named_chart hnames
  rw [← hnone]
  exact .declared hnot

include hs hsite

/-- The instance lies in the scope that the call was in. -/
theorem inside_new (hx : s.Inside (Bindings.Opens s root) X x) (hk : h.Within k j) :
    h.Inside (Bindings.Opens h root) k x := by
  have hlt : X < s.size := hs.wellFormed.lt_size_of_link hsite.link
  have hX : h.Inside (Bindings.Opens h root) X x :=
    hi.kept.carried.inside (fun _ _ => hi.kept.opens_iff hs) hs.wellFormed hi.within hlt hx
  have hclosed : ∀ {i q}, h.Within i j → h.Link i q → ¬ Bindings.Opens h root i := by
    intro i q hij hlink
    rcases hi.plain i hij with ⟨n, hn, hplain⟩
    refine Bindings.not_opens_of_kind hi.program hn (opensScope_of_plain hplain) ?_
    rintro rfl
    cases hi.program.parent.symm.trans hlink
  induction hk using ReflTransGen.head_induction_on with
  | refl => exact .outward (hclosed .refl hi.link) hi.link hX
  | @head i q hlink hpath ih => exact .outward (hclosed (.head hlink hpath) hlink) hlink ih

include hwhole

theorem reached_new : Reached h root (.value .read, j) := by
  rcases hsite.reached_statement hs hwhole with ⟨kind, hreached⟩
  have hlt : X < s.size := hs.wellFormed.lt_size_of_link hsite.link
  have hreached' := (hi.kept.carried.reached_iff hs.wellFormed hi.program.wellFormed hs.parent
    hi.program.parent hi.within hlt).mpr hreached
  exact reached_expression hi.statement hreached'

include he

/-- A name of the expression that is used has its place in the instance used as well. -/
theorem reached_of_used (hk : h.Within k j) (hused : Used s root kind name (source k)) :
    ∃ q, Reached h root (q, k) ∧ q.use? = some kind := by
  rcases hused.reached with ⟨q, hreached, hkind⟩
  have hbelow := hi.repeats.below k hk
  have hpath := (reached_through (x := (q, source k)) hs.wellFormed he.plain he.link he.statement
    hs.parent hreached hbelow).2
  rcases hi.repeats.follow hi.program.wellFormed hpath with ⟨k', hk', hsame, hpath'⟩
  obtain rfl := hi.repeats.injective k' k hk' hk hsame
  exact ⟨q, (hi.reached_new hs hwhole hsite).trans hpath', hkind⟩

/-- What is copied stands for what it stood for in the function. -/
theorem denotes_copy (hk : h.Within k j) (hm : h.node? (some k) = some m)
    (hsource : s.node? (some (source k)) = some (m.map (Option.map source)))
    (harg : arg (source k) = none) :
    Bindings.Denotes h root k (Bindings.declarationOf s root (source k)) := by
  have hbelow := hi.repeats.below k hk
  by_cases hused : ∃ kind name, Used h root kind name k
  · rcases hused with ⟨kind, name, hused⟩
    rcases hused.reached with ⟨q, hreached, _⟩
    have hpath := (reached_through (x := (q, k)) hi.program.wellFormed hi.plain hi.link
      hi.statement hi.program.parent hreached hk).2
    have hpath' := hi.repeats.reflect hi.program.wellFormed hpath ⟨m, hm, hsource⟩
    have hname : s.node? (some (source k)) = some (.name .identifier name) := by
      obtain rfl := Option.some.inj (hm.symm.trans hused.node)
      exact hsource
    have hreference := isReference_of_path hs.wellFormed he.plain he.link he.statement hpath' hname
    have hfree := hi.free _ _ hbelow hname hreference harg
    rcases hsite.exists_scope hs hwhole with ⟨x, hx, hnames, _⟩
    have hmeans := hnames name _ hfree
    rw [← hi.kept.chart_eq hs] at hmeans
    rw [Bindings.declarationOf_eq]
    exact .used hused (hi.inside_new hs hsite hx hk) hmeans
  · have hnot : ∀ kind name, ¬ Used h root kind name k := fun kind name h => hused ⟨kind, name, h⟩
    have hnone : Bindings.declarationOf s root (source k) = none := by
      apply Bindings.declarationOf_eq_none hs hwhole
      · exact not_declares_of_plain hs.wellFormed he.plain he.link he.statement hbelow
      · intro kind name hused
        rcases hi.reached_of_used hs hwhole hsite he hk hused with ⟨q, hreached, hkind⟩
        refine hnot kind name ⟨?_, q, hreached, hkind⟩
        have hrevision : Revision s s none source m (m.map (Option.map source)) := .mapped m
        have htext := Revised.identifierText?_of_revision hrevision
        rw [Option.some.inj (hsource.symm.trans hused.node)] at htext
        rw [hm, Node.identifierText?_eq_some_iff.mp htext.symm]
    rw [hnone]
    exact hi.denotes_none hk hnot

/-- The copy of an argument stands for what the argument stands for at the call. -/
theorem denotes_argument (hk : h.Within k j) (hm : h.node? (some k) = some m)
    (harg : arg (source k) = some (some a)) (ha : s.node? (some a) = some m) :
    Bindings.Denotes h root k (Bindings.declarationOf s root a) := by
  have hbelow := hi.repeats.below k hk
  have hmem := hi.arguments _ _ hbelow harg
  rcases hi.bound _ hbelow (by rw [harg]; nofun) with ⟨kind, name, hused⟩
  rcases hi.reached_of_used hs hwhole hsite he hk hused with ⟨q, hreached, hkind⟩
  by_cases hname : ∃ text, m = .name .identifier text
  · rcases hname with ⟨text, rfl⟩
    rcases hsite.exists_scope hs hwhole with ⟨x, hx, _, hargs⟩
    have hmeans := hargs a text hmem ha
    rw [← hi.kept.chart_eq hs] at hmeans
    exact .used ⟨hm, q, hreached, hkind⟩ (hi.inside_new hs hsite hx hk) hmeans
  · have hnot : ∀ {f : Forest} {i kind text}, f.node? (some i) = some m →
        ¬ Used f root kind text i := by
      intro f i kind text hn hused
      exact hname ⟨text, Option.some.inj (hn.symm.trans hused.node)⟩
    have hnone : Bindings.declarationOf s root a = none := by
      apply Bindings.declarationOf_eq_none hs hwhole
      · rcases hsite.call with ⟨isOptional, inChain, hcall⟩
        refine not_declares_of_call hs.wellFormed hsite.link hsite.statement hcall ?_
        exact hs.wellFormed.link_of_slot hcall (List.mem_cons_of_mem _ hmem)
      · exact fun kind text => hnot ha
    rw [hnone]
    exact hi.denotes_none hk fun kind text => hnot hm

omit hsite he in
/-- A node of the tree that a node of the instance repeats is recorded rightly. -/
theorem recorded {i : NodeId} (hwithin : s.Within i root)
    (htext : s.identifierText? (some i) = h.identifierText? (some k))
    (hdenotes : Bindings.Denotes h root k (Bindings.declarationOf s root i)) :
    Recorded s h root k log (replica (Bindings.ofForest s (some root)) i k) := by
  have hlt : i < s.size := by
    rcases hs.node with ⟨statements, hn⟩
    exact lt_size_of_within hwithin (lt_size_of_node? hn)
  refine ⟨rfl, Nat.lt_of_lt_of_le hlt hi.kept.size_le, ?_, hdenotes, i, .old hlt, hwithin, htext,
    Bindings.denotes_declarationOf hs hwhole i⟩
  exact (hi.kept.carried.identifierText?_eq hlt).trans htext

/-- Every name of an instance stands for what the name it is a copy of stood for. -/
theorem denotes (hk : h.Within k j) : ∃ r ∈ log, Recorded s h root k log r := by
  rcases hi.repeats.node k hk with ⟨m, hm, hpart⟩
  cases hpart with
  | copy hsource hrest hlog =>
      have harg := hrest.resolve_left List.not_mem_nil
      refine ⟨_, hlog, hi.recorded hs hwhole ?_ ?_
        (hi.denotes_copy hs hwhole hsite he hk hm hsource harg)⟩
      · exact (hi.repeats.below k hk).trans (.head he.link he.within)
      · have hrevision : Revision s s none source m (m.map (Option.map source)) := .mapped m
        rw [identifierText?, identifierText?, hm, hsource]
        exact Revised.identifierText?_of_revision hrevision
  | @argument a harg hnode _ hlog =>
      refine ⟨_, hlog, hi.recorded hs hwhole ?_ ?_
        (hi.denotes_argument hs hwhole hsite he hk hm harg hnode)⟩
      · have hmem := hi.arguments _ _ (hi.repeats.below k hk) harg
        rcases hsite.call with ⟨isOptional, inChain, hn⟩
        have hlink := hs.wellFormed.link_of_slot hn (List.mem_cons_of_mem _ hmem)
        exact .head hlink (.head hsite.link hsite.within)
      · rw [identifierText?, identifierText?, hm, hnode]

end Names

end Inlined

end StatementProxy
end Untangle
