import Untangle.Proofs.Rewrite.Instantiation
import Untangle.Proofs.Rewrite.StatementProxies

/-!
# Trees with replaced calls

The callee of a call that is replaced is a name that the walk uses, so that the walk comes to the
call and to its arguments. There the free names of the proxy mean what they mean in the function,
and the arguments stand for what they mean in the scope around the call.

The calls of a round are replaced one after another, but they were found in the tree, and checked
by the bindings, of the beginning. Only statements that were calls have changed since, so that
calls and the expressions of proxies are found as they were.
-/

namespace Untangle

open Forest
open Relation (ReflTransGen)

namespace Forest

variable {f : Forest} {e i X : NodeId} {n : Node Slot}

/-- A plain node whose children have no parts. -/
theorem plain_of_leaves (hf : f.WellFormed) (hn : f.node? (some e) = some n)
    (hplain : n.isPlain = true)
    (hleaves : ∀ c, some c ∈ n.slots → ∃ m, f.node? (some c) = some m ∧ m.isPlain = true ∧
      m.slots = []) : f.Plain e := by
  intro k hk
  rcases within_iff.mp hk with rfl | ⟨c, hlink, hkc⟩
  · exact ⟨n, hn, hplain⟩
  · have hmem := hf.linked.mp hlink
    rw [children_of_node? hn, mem_childrenOf] at hmem
    rcases hleaves c hmem with ⟨m, hm, hmplain, hslots⟩
    exact plain_of_leaf hf hm hmplain hslots k hkc

/-- What stands in a call that is a statement by itself is not declared. -/
theorem not_declares_of_call {callee : Slot} {args : List Slot} {isOptional inChain : Bool}
    (hf : f.WellFormed) (hlink : f.Link e X)
    (hX : f.node? (some X) = some (.operand .expressionStatement (some e)))
    (hn : f.node? (some e) = some (.call .call callee args isOptional inChain))
    (hi : f.Link i e) : ¬ f.Declares i := by
  have hcall : ¬ f.Binds e := by
    intro hbinds
    cases hbinds with
    | pattern hm hmem =>
        obtain rfl := Link.unique (hf.link_of_errand (p := .value .read) hm hmem rfl) hlink
        obtain rfl := Option.some.inj (hm.symm.trans hX)
        simp [Node.valueErrands, childrenOf, Errand.toTarget, Errand.toValue] at hmem
    | deeper _ hm hagain hmem =>
        obtain rfl := Link.unique (hf.link_of_errand (p := .target none) hm hmem rfl) hlink
        obtain rfl := Option.some.inj (hm.symm.trans hX)
        cases hagain
  rintro (hbinds | ⟨p, m, hm, hown⟩)
  · cases hbinds with
    | pattern hm hmem =>
        obtain rfl := Link.unique (hf.link_of_errand (p := .value .read) hm hmem rfl) hi
        obtain rfl := Option.some.inj (hm.symm.trans hn)
        simp [Node.valueErrands, Errand.toTarget, Errand.toValue] at hmem
    | deeper hp hm _ hmem =>
        obtain rfl := Link.unique (hf.link_of_errand (p := .target none) hm hmem rfl) hi
        exact hcall hp
  · obtain rfl := Link.unique (hf.link_of_ownName hm hown) hi
    obtain rfl := Option.some.inj (hm.symm.trans hn)
    cases hown

end Forest

namespace StatementProxy

variable {f : Forest} {root call X : NodeId} {p : StatementProxy} {args : List Slot}
  {callee : Slot} {isOptional inChain : Bool} {b : Bindings}

/-- A call of a proxy in a program. -/
structure CallSite (p : StatementProxy) (f : Forest) (root call X : NodeId) (callee : Slot)
    (args : List Slot) : Prop
    extends Replaceable p f (Bindings.ofForest f (some root)) call X args where
  call : ∃ isOptional inChain,
    f.node? (some call) = some (.call .call callee args isOptional inChain)
  within : f.Within X root
  bound : (Bindings.ofForest f (some root)).resolve callee ≠ none

section CallSite

variable (hsite : CallSite p f root call X callee args) (hprogram : f.HasProgram root)
  (hwhole : (Bindings.ofForest f (some root)).truncated = false)

include hsite hprogram hwhole

theorem CallSite.callee_used : ∃ c kind name, callee = some c ∧ Used f root kind name c := by
  rcases hsite.call with ⟨isOptional, inChain, hn⟩
  cases callee with
  | none => exact absurd rfl hsite.bound
  | some c =>
      have hlink : f.Link c call := hprogram.wellFormed.link_of_slot hn List.mem_cons_self
      have hdecl := not_declares_of_call hprogram.wellFormed hsite.link hsite.statement hn hlink
      rcases Bindings.used_of_resolved hwhole hdecl hsite.bound with ⟨kind, name, hused⟩
      exact ⟨c, kind, name, rfl, hused⟩

theorem CallSite.plain : f.Plain call := by
  rcases hsite.call with ⟨isOptional, inChain, hn⟩
  rcases hsite.callee_used hprogram hwhole with ⟨c, kind, name, rfl, hused⟩
  apply plain_of_leaves hprogram.wellFormed hn rfl
  intro i hi
  rcases List.mem_cons.mp hi with heq | hmem
  · obtain rfl := Option.some.inj heq
    exact ⟨_, hused.node, rfl, rfl⟩
  · rcases hsite.leaves _ hmem with ⟨a, m, heq, hm, hplain, hslots⟩
    obtain rfl := Option.some.inj heq
    exact ⟨m, hm, hplain, hslots⟩

/-- The walk comes to the statement of the call for its value. -/
theorem CallSite.reached_statement : ∃ kind, Reached f root (.value kind, X) := by
  have hf := hprogram.wellFormed
  rcases hsite.call with ⟨isOptional, inChain, hn⟩
  rcases hsite.callee_used hprogram hwhole with ⟨c, kind, name, rfl, hused⟩
  have hlink : f.Link c call := hf.link_of_slot hn List.mem_cons_self
  rcases hused.reached with ⟨q, hreached, _⟩
  exact (reached_through (x := (q, c)) hf (hsite.plain hprogram hwhole) hsite.link hsite.statement
    hprogram.parent hreached (.single hlink)).1

theorem CallSite.reached : Reached f root (.value .read, call) := by
  rcases hsite.reached_statement hprogram hwhole with ⟨kind, hreached⟩
  exact reached_expression hsite.statement hreached

theorem CallSite.argument_used {a : NodeId} {text : String} (ha : some a ∈ args)
    (htext : f.node? (some a) = some (.name .identifier text)) : Used f root .read text a := by
  rcases hsite.call with ⟨isOptional, inChain, hn⟩
  refine ⟨htext, .value .read, ?_, rfl⟩
  have hmem : Errand.toValue (some a) ∈
      (Node.call .call callee args isOptional inChain).errands (.value .read) :=
    List.mem_cons_of_mem _ (List.mem_map_of_mem ha)
  exact .tail (hsite.reached hprogram hwhole) (.child hn rfl hmem rfl)

/-- The scope around the call knows the free names and the arguments. -/
theorem CallSite.exists_scope :
    ∃ x, f.Inside (Bindings.Opens f root) X x ∧
      (∀ name found, (name, found) ∈ p.freeNames →
        (Bindings.chart f root).Means name x (found.bind (Bindings.declarations f root).declares)) ∧
      ∀ a text, some a ∈ args → f.node? (some a) = some (.name .identifier text) →
        (Bindings.chart f root).Means text x (Bindings.declarationOf f root a) := by
  have hf := hprogram.wellFormed
  rcases hsite.call with ⟨isOptional, inChain, hn⟩
  have hroot : call ≠ root := by
    rintro rfl
    cases hprogram.parent.symm.trans hsite.link
  have hclosed := Bindings.not_opens_of_kind hprogram hn rfl hroot
  rcases Bindings.lookup_means hprogram hwhole (hsite.reached hprogram hwhole) hclosed with
    ⟨x, hx, hmeans⟩
  refine ⟨x, ?_, ?_, ?_⟩
  · cases hx with
    | here hopen => exact absurd hopen hclosed
    | outward _ hlink hp => exact Link.unique hlink hsite.link ▸ hp
  · intro name found hmem
    rw [← hsite.names name found hmem]
    exact hmeans name
  · intro a text ha htext
    have hused := hsite.argument_used hprogram hwhole ha htext
    rcases Bindings.declarationOf_of_used hprogram hwhole hused with ⟨y, hy, hfound⟩
    have hlink : f.Link a call := hf.link_of_slot hn (List.mem_cons_of_mem _ ha)
    have hinside : f.Inside (Bindings.Opens f root) a x :=
      .outward (Bindings.not_opens_of_name hprogram htext) hlink hx
    exact hy.unique hinside ▸ hfound

end CallSite

end StatementProxy
end Untangle

namespace Untangle

open Forest
open Relation (ReflTransGen)

/-!
## Records
-/

/-- The records lead from a node to one of the forest `s`, from copy to source. -/
inductive CopyOf (s : Forest) (log : List StatementProxy.Replica) : NodeId → NodeId → Prop
  | old {k : NodeId} (hk : k < s.size) : CopyOf s log k k
  | copy {r : StatementProxy.Replica} {k : NodeId} (hr : r ∈ log)
      (hk : CopyOf s log r.source k) : CopyOf s log r.node k

namespace CopyOf

variable {s g : Forest} {log log' : List StatementProxy.Replica} {i j k : NodeId}

theorem lt_size (h : CopyOf s log i k) : k < s.size := by
  induction h with
  | old hk => exact hk
  | copy _ _ ih => exact ih

theorem trans (h : CopyOf g log' i j) (h' : CopyOf s log j k) (hlog : log' ⊆ log) :
    CopyOf s log i k := by
  induction h with
  | old _ => exact h'
  | copy hr _ ih => exact .copy (hlog hr) (ih h')

theorem mono (h : CopyOf s log i k) (hlog : log ⊆ log') : CopyOf s log' i k :=
  h.trans (.old h.lt_size) hlog

end CopyOf

/-- The record says rightly what a node of `g` was copied from and what it stands for, which is
what the node of `s` stands for that it goes back to. -/
structure Recorded (s g : Forest) (root i : NodeId) (log : List StatementProxy.Replica)
    (r : StatementProxy.Replica) : Prop where
  node : r.node = i
  source_lt : r.source < g.size
  text : g.identifierText? (some r.source) = g.identifierText? (some i)
  denotes : Bindings.Denotes g root i r.declaration
  origin : ∃ k, CopyOf s log r.source k ∧ s.Within k root ∧
    s.identifierText? (some k) = g.identifierText? (some i) ∧
      Bindings.Denotes s root k r.declaration

namespace Recorded

variable {s g k : Forest} {root i : NodeId} {log log' : List StatementProxy.Replica}
  {r : StatementProxy.Replica}

theorem mono (h : Recorded s g root i log r) (hlog : log ⊆ log') :
    Recorded s g root i log' r := by
  rcases h.origin with ⟨k, hk, horigin⟩
  exact ⟨h.node, h.source_lt, h.text, h.denotes, k, hk.mono hlog, horigin⟩

/-- What is recorded of a node that stays remains true. -/
theorem kept (h : Recorded s g root i log r) (hkept : Kept g k root none id)
    (hg : g.HasProgram root) (hk : k.HasProgram root) (hi : k.Within i root) (hlt : i < g.size) :
    Recorded s k root i log r := by
  have htext := hkept.carried.identifierText?_eq hlt
  refine ⟨h.node, Nat.lt_of_lt_of_le h.source_lt hkept.size_le, ?_,
    h.denotes.kept hkept hg hk hi hlt, htext ▸ h.origin⟩
  rw [hkept.carried.identifierText?_eq h.source_lt, htext, h.text]

end Recorded

/-!
## Replaced calls
-/

/-- From `s`, some statements have had their calls replaced, and it is known what the names of the
new nodes stand for. -/
structure CallsReplaced (s g : Forest) (root : NodeId) (log : List StatementProxy.Replica) :
    Prop where
  program : g.HasProgram root
  layered : g.LayeredBelow root
  kept : Kept s g root none id
  /-- Only calls are taken out of their places. -/
  link : ∀ {c i}, s.Link c i → g.Link c i ∨ ∃ callee args isOptional inChain,
    s.node? (some c) = some (.call .call callee args isOptional inChain)
  made : ∀ i, g.Within i root → s.size ≤ i → ∃ r ∈ log, Recorded s g root i log r

namespace CallsReplaced

variable {s g : Forest} {root i e c X : NodeId} {log : List StatementProxy.Replica} {n : Node Slot}

theorem refl (hprogram : s.HasProgram root) (hlayered : s.LayeredBelow root) :
    CallsReplaced s s root [] := by
  refine ⟨hprogram, hlayered, .refl s root, .inl, ?_⟩
  intro i hi hlt
  have hroot : root < s.size := by
    rcases hprogram.node with ⟨statements, hn⟩
    exact lt_size_of_node? hn
  exact absurd (lt_size_of_within hi hroot) (Nat.not_lt.mpr hlt)

section Trees

variable (h : CallsReplaced s g root log) (hs : s.HasProgram root)

include h

/-- Other nodes than statements are as they were. -/
theorem node?_eq (hi : i < s.size) (hn : g.node? (some i) = some n)
    (hne : ∀ t, n ≠ .operand .expressionStatement t) : s.node? (some i) = some n := by
  rcases h.kept.node (node?_of_lt hi) with ⟨m, hm, hrevision⟩
  obtain rfl := Option.some.inj (hn.symm.trans hm)
  rcases hrevision.same_or_expression with heq | ⟨_, _, _, heq, _⟩
  · rw [node?_of_lt hi, ← heq]
  · exact absurd heq (hne _)

theorem node?_of_plain (hn : s.node? (some i) = some n) (hplain : n.isPlain = true) :
    g.node? (some i) = some n := by
  rcases h.kept.node hn with ⟨m, hm, hrevision⟩
  rcases hrevision.same_or_expression with rfl | ⟨_, _, rfl, _, _⟩
  · exact hm
  · cases hplain

include hs

/-- What is below a plain expression is what was below it. -/
theorem within_of_plain (he : s.Plain e) (hi : g.Within i e) : s.Within i e := by
  induction hi using ReflTransGen.head_induction_on with
  | refl => exact .refl
  | @head c q hlink _ ih =>
      rcases he q ih with ⟨n, hn, hplain⟩
      have hmem := h.program.wellFormed.linked.mp hlink
      rw [children_of_node? (h.node?_of_plain hn hplain), ← children_of_node? hn] at hmem
      exact .head (hs.wellFormed.linked.mpr hmem) ih

theorem plain_of_plain (he : s.Plain e) : g.Plain e := by
  intro k hk
  rcases he k (h.within_of_plain hs he hk) with ⟨n, hn, hplain⟩
  exact ⟨n, h.node?_of_plain hn hplain, hplain⟩

/-- A name is a reference where it was one. -/
theorem isReference_eq {text : String} (hlink : s.Link i c)
    (hn : s.node? (some i) = some (.name .identifier text)) :
    g.isReference (some i) = s.isReference (some i) := by
  have hparent : s.parent (some i) = some c := hlink
  have hparent' : g.parent (some i) = some c := by
    rcases h.link hlink with hlink' | ⟨_, _, _, _, hcall⟩
    · exact hlink'
    · cases hn.symm.trans hcall
  have hc := node?_of_lt (hs.wellFormed.lt_size_of_link hlink)
  rcases h.kept.node hc with ⟨m, hm, hrevision⟩
  rw [isReference, isReference, hparent, hparent', hm, hc]
  rcases hrevision.same_or_expression with heq | ⟨_, _, heq, heq', _⟩
  · rw [heq]
  · rw [heq, heq']

/-- Climbing from a node leads to the scope where it led. -/
theorem scopeOf_eq (hi : g.Within i root) (hlt : i < s.size) :
    (Bindings.ofForest s (some root)).scopeOf g (some i) =
      (Bindings.ofForest s (some root)).scopeOf s (some i) := by
  have hopened : ((Bindings.ofForest s (some root)).opened[root]?).isSome := by
    rw [(Bindings.sameTables_ofForest s root).opened]
    exact Bindings.isSome_opened_iff.mpr (.inl rfl)
  have hclimb : ∀ steps {i}, g.Within i root → i < s.size →
      (Bindings.ofForest s (some root)).scopeOfFrom g steps (some i) =
        (Bindings.ofForest s (some root)).scopeOfFrom s steps (some i) := by
    intro steps
    induction steps with
    | zero => intro i _ _; rfl
    | succ steps ih =>
        intro i hi hlt
        rw [Bindings.scopeOfFrom, Bindings.scopeOfFrom]
        cases hscope : (Bindings.ofForest s (some root)).opened[i]? with
        | some t => rfl
        | none =>
            have hne : i ≠ root := by
              rintro rfl
              rw [hscope] at hopened
              cases hopened
            have hparent := h.kept.below hi hlt hne
            rcases ReflTransGen.cases_head hi with heq | ⟨q, hlink, hpath⟩
            · exact absurd heq hne
            · have hlink' : s.parent (some i) = some q := hparent.symm.trans hlink
              have hq := hs.wellFormed.lt_size_of_link hlink'
              dsimp only
              rw [hparent, hlink']
              exact ih hpath hq
  exact hclimb _ hi hlt

/-!
## Calls
-/

variable {p : StatementProxy} {args : List Slot} {call : NodeId} {callee : Slot}
  {isOptional inChain : Bool}

/-- What may be replaced now was a call of the same proxy at the beginning. -/
theorem callSite (hlt : call < s.size) (hcall : g.Within call root)
    (hn : g.node? (some call) = some (.call .call callee args isOptional inChain))
    (hbound : (Bindings.ofForest s (some root)).resolve callee ≠ none)
    (hp : StatementProxy.Replaceable p g (Bindings.ofForest s (some root)) call X args) :
    StatementProxy.CallSite p s root call X callee args := by
  have hf := hs.wellFormed
  have hroot : call ≠ root := by
    rintro rfl
    cases h.program.parent.symm.trans hp.link
  have hnode := h.node?_eq hlt hn nofun
  have hlink : s.Link call X := (h.kept.carried.link hcall hlt hroot).mp hp.link
  have hX : s.node? (some X) = some (.operand .expressionStatement (some call)) := by
    rcases h.kept.node (node?_of_lt (hf.lt_size_of_link hlink)) with ⟨m, hm, hrevision⟩
    obtain rfl := Option.some.inj (hp.statement.symm.trans hm)
    have hold := node?_of_lt (hf.lt_size_of_link hlink)
    rcases hrevision.same_or_expression with heq | ⟨t, _, heq, _, _⟩
    · rw [hold, ← heq]
    · have hmem := hf.linked.mp hlink
      rw [hold, heq]
      rw [children_of_node? hold, heq, mem_childrenOf] at hmem
      rw [List.mem_singleton.mp hmem]
  have hwithin : g.Within X root := by
    rcases ReflTransGen.cases_head hcall with heq | ⟨q, hq, hpath⟩
    · exact absurd heq hroot
    · exact Link.unique hq hp.link ▸ hpath
  refine ⟨⟨hlink, hX, hp.length, ?_, ?_⟩, ⟨_, _, hnode⟩,
    h.kept.carried.within hf hwithin (hf.lt_size_of_link hlink), hbound⟩
  · intro t ht
    rcases hp.leaves t ht with ⟨a, m, rfl, hm, hplain, hslots⟩
    have ha : a < s.size := by
      apply hf.filled
      rw [children_of_node? hnode]
      exact mem_childrenOf.mpr (List.mem_cons_of_mem _ ht)
    refine ⟨a, m, rfl, h.node?_eq ha hm ?_, hplain, hslots⟩
    rintro t rfl
    cases hplain
  · intro name found hmem
    rw [← h.scopeOf_eq hs hcall hlt]
    exact hp.names name found hmem

/-!
## Parameters
-/

variable (hwhole : (Bindings.ofForest s (some root)).truncated = false)
  (he : StatementProxy.Hosted s root X e)

include hwhole he

theorem instantiable (hleaves : ∀ t ∈ args, ∃ a n, t = some a ∧ g.node? (some a) = some n ∧
      n.slots = []) :
    StatementProxy.Instantiable p g (Bindings.ofForest s (some root)) args e := by
  refine ⟨h.program.wellFormed, ?_, ?_, hleaves⟩
  · exact Nat.lt_of_lt_of_le (lt_size_of_parent he.link) h.kept.size_le
  · intro i n hi harg hn
    have hi' := h.within_of_plain hs he.plain hi
    rcases he.used_of_argumentAt? hs hwhole hi' harg with ⟨kind, name, hused⟩
    have hnode := h.node?_of_plain hused.node rfl
    obtain rfl := Option.some.inj (hn.symm.trans hnode)
    rfl

omit hwhole in
/-- A reference to a parameter has an argument. -/
theorem argumentAt?_ne_none {text : String} {k : BindingId} (hi : s.Within i e)
    (hn : s.node? (some i) = some (.name .identifier text))
    (hreference : s.isReference (some i) = true)
    (hk : (Bindings.ofForest s (some root)).resolve (some i) = some k) (hmem : k ∈ p.parameters)
    (hlength : args.length = p.parameters.length) :
    p.argumentAt? g (Bindings.ofForest s (some root)) args i ≠ none := by
  obtain ⟨c, hlink⟩ : ∃ c, s.Link i c := by
    rcases ReflTransGen.cases_head hi with rfl | ⟨c, hlink, _⟩
    · exact ⟨X, he.link⟩
    · exact ⟨c, hlink⟩
  have hreference' := (h.isReference_eq hs hlink hn).trans hreference
  obtain ⟨position, hposition⟩ : ∃ position, p.parameters.idxOf? k = some position := by
    cases hfound : p.parameters.idxOf? k with
    | none => exact absurd hmem (List.idxOf?_eq_none_iff.mp hfound)
    | some position => exact ⟨position, rfl⟩
  have hlt : position < args.length := by
    rw [hlength]
    exact (List.idxOf?_eq_some_iff.mp hposition).1
  have harg := List.getElem?_eq_getElem hlt
  simp [StatementProxy.argumentAt?, hk, hposition, hreference', harg]

end Trees

end CallsReplaced
end Untangle
