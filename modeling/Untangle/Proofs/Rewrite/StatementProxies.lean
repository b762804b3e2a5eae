import Untangle.Proofs.Scope.References
import Untangle.Proofs.Scope.Registry
import Untangle.Proofs.Tree.Walks
import Untangle.Rewrite.StringProxies

/-!
# What is known of statement proxies

A function that is recognised as a proxy consists of one plain expression. Every name that the
expression uses is a parameter or one of the free names that are recorded, and a call is only
replaced where the free names mean what they mean in the function.
-/

namespace Untangle

open Forest
open Relation (ReflTransGen)

/-!
## Below a root
-/

namespace Forest

variable {f : Forest} {root e : NodeId} {code : Slot}

/-- Below a root, statements only stand where statements may stand. -/
def LayeredBelow (f : Forest) (root : NodeId) : Prop :=
  ∀ ⦃p n c⦄, f.Within p root → f.node? (some p) = some n → n.surroundsStatements = false →
    c ∈ childrenOf n → f.Inner c

theorem Layered.below (h : f.Layered) (root : NodeId) : f.LayeredBelow root :=
  fun _ _ _ _ hn hlevel hc => h hn hlevel hc

/-- The only statement of the body is one of an expression. -/
theorem exists_statement_of_soleExpression? (hf : f.WellFormed)
    (h : f.soleExpression? code = some (some e)) :
    ∃ c X, code = some c ∧ f.Link X c ∧ f.Link e X ∧
      f.node? (some X) = some (.operand .expressionStatement (some e)) := by
  unfold soleExpression? onlyStatement? at h
  split at h
  · rename_i e' honly
    obtain rfl := Option.some.inj h
    split at honly
    · rename_i statement hcode
      cases code with
      | none => cases hcode
      | some c =>
          cases statement with
          | none => cases honly
          | some X =>
              refine ⟨c, X, rfl, ?_, ?_, honly⟩
              · exact hf.link_of_slot hcode (List.mem_singleton_self _)
              · exact hf.link_of_slot honly (List.mem_singleton_self _)
    · cases honly
  · cases h

end Forest

namespace StatementProxy

variable {f : Forest} {b : Bindings} {root own i : NodeId} {p : StatementProxy}
  {binding : Binding} {n : Node Slot} {parameters : List BindingId} {nodes : List NodeId}
  {names : List (String × Option BindingId)}

/-!
## Free names
-/

theorem isMovable_of_freeNames? (h : freeNames? f b own parameters nodes = some names)
    (hi : i ∈ nodes) : contribution f b own parameters i ≠ .immovable := by
  induction nodes generalizing names with
  | nil => cases hi
  | cons j nodes ih =>
      rw [freeNames?] at h
      intro himmovable
      rcases List.mem_cons.mp hi with rfl | hmem
      · rw [himmovable] at h
        cases h
      · split at h
        · cases h
        · exact ih h hmem himmovable
        · rcases Option.map_eq_some_iff.mp h with ⟨rest, hrest, _⟩
          exact ih hrest hmem himmovable

theorem mem_of_freeNames? (h : freeNames? f b own parameters nodes = some names) (hi : i ∈ nodes)
    {name : String} {found : Option BindingId}
    (hname : contribution f b own parameters i = .freeName name found) : (name, found) ∈ names := by
  induction nodes generalizing names with
  | nil => cases hi
  | cons j nodes ih =>
      rw [freeNames?] at h
      rcases List.mem_cons.mp hi with rfl | hmem
      · rw [hname] at h
        rcases Option.map_eq_some_iff.mp h with ⟨rest, _, rfl⟩
        exact List.mem_cons_self
      · split at h
        · cases h
        · exact ih h hmem
        · rcases Option.map_eq_some_iff.mp h with ⟨rest, hrest, rfl⟩
          exact List.mem_cons_of_mem _ (ih hrest hmem)

/-- What can be moved is not tied to the function. -/
theorem not_tied_of_movable (h : contribution f b own parameters i ≠ .immovable) :
    ∃ n, f.node? (some i) = some n ∧ isTiedToFunction n = false := by
  unfold contribution at h
  split at h
  · exact absurd rfl h
  · exact ⟨_, ‹_›, rfl⟩
  · rename_i n _ hn
    refine ⟨n, hn, ?_⟩
    by_contra htied
    exact h (if_pos (by simpa using htied))

/-- A reference is to a parameter, or it is a free name. -/
theorem parameter_or_freeName {text : String} (hn : f.node? (some i) = some (.name .identifier text))
    (hreference : f.isReference (some i) = true)
    (hmovable : contribution f b own parameters i ≠ .immovable) :
    (∃ k, b.resolve (some i) = some k ∧ k ∈ parameters) ∨
      contribution f b own parameters i = .freeName text (b.resolve (some i)) := by
  unfold contribution at hmovable ⊢
  simp only [hn, hreference, if_true] at hmovable ⊢
  cases hresolve : b.resolve (some i) with
  | none =>
      simp only [hresolve] at hmovable ⊢
      split
      · rename_i htext
        exact absurd (if_pos htext) hmovable
      · exact .inr rfl
  | some k =>
      simp only [hresolve] at hmovable ⊢
      by_cases hown : k = own
      · exact absurd (if_pos hown) hmovable
      · by_cases hmem : k ∈ parameters
        · exact .inl ⟨k, rfl, hmem⟩
        · right
          simp [hown, hmem]

/-!
## Recognition
-/

/-- What is known of a function that is recognised as a proxy. -/
structure Recognised (f : Forest) (b : Bindings) (own : BindingId) (binding : Binding)
    (p : StatementProxy) : Prop where
  function : binding.kind = .function
  stable : binding.isStable = true
  constant : binding.hasWrites = false
  declaration : p.declaration = binding.declaration
  node : ∃ ident parameters code isAsync isGenerator,
    f.node? (some p.declaration) =
        some (.function .declaration ident parameters code isAsync isGenerator) ∧
      f.soleExpression? code = some p.expression ∧
      parameters.mapM (parameter? b) = some p.parameters
  names : freeNames? f b own p.parameters (f.preorder p.expression) = some p.freeNames

theorem recognised_of_ofBinding? (h : ofBinding? f b own binding = some p) :
    Recognised f b own binding p := by
  unfold ofBinding? at h
  rcases Option.bind_eq_some_iff.mp h with ⟨_, hguard, h⟩
  have hbinding := (Option.guard_eq_some' _).mp hguard
  simp only [Bool.and_eq_true, beq_iff_eq, Bool.not_eq_true'] at hbinding
  split at h
  · rename_i ident parameters code isAsync isGenerator hn
    rcases Option.bind_eq_some_iff.mp h with ⟨expression, hexpression, h⟩
    rcases Option.bind_eq_some_iff.mp h with ⟨parameterIds, hparameters, h⟩
    rcases Option.bind_eq_some_iff.mp h with ⟨names, hnames, h⟩
    obtain rfl := Option.some.inj h
    exact ⟨hbinding.1.1, hbinding.1.2, hbinding.2, rfl,
      ⟨ident, parameters, code, isAsync, isGenerator, hn, hexpression, hparameters⟩, hnames⟩
  · cases h

theorem exists_recognised_of_ofCall? {callee : Slot}
    (h : ofCall? (ready f b) b callee = some p) :
    ∃ own binding, b.resolve callee = some own ∧ b.binding? own = some binding ∧
      Recognised f b own binding p := by
  unfold ofCall? at h
  rcases Option.bind_eq_some_iff.mp h with ⟨own, hown, h⟩
  rcases Option.bind_eq_some_iff.mp h with ⟨entry, hready, rfl⟩
  simp only [ready, all, Array.getElem?_map, Array.getElem?_mapIdx, Option.map_map,
    Option.map_eq_some_iff] at hready
  rcases hready with ⟨binding, hbinding, hproxy⟩
  refine ⟨own, binding, hown, hbinding, recognised_of_ofBinding? ?_⟩
  exact (Option.filter_eq_some_iff.mp hproxy).1

/-!
## Proxies of a program
-/

/-- Everything but functions and classes keeps statements out of its expressions. -/
theorem surroundsStatements_of_not_tied (hlevel : n.isStatementLevel = false)
    (htied : isTiedToFunction n = false) : n.surroundsStatements = false := by
  cases n with
  | function form _ _ _ _ _ =>
      cases form with
      | declaration => cases hlevel
      | expression | arrow => cases htied
  | classLike form _ _ _ =>
      cases form with
      | declaration => cases hlevel
      | expression => cases htied
  | body _ _ | variableStatement _ _ | conditionalStatement _ _ _ | forLoop _ _ _ _
  | iteration _ _ _ _ _ | guarded _ _ _ | tryStatement _ _ _ | catchClause _ _ | switch _ _
  | caseClause _ _ | labeled _ _ => cases hlevel
  | _ => rfl

/-- An expression without anything tied to the function around it is plain. -/
theorem plain_of_not_tied {e : NodeId} (hf : f.WellFormed) (hlayered : f.LayeredBelow root)
    (he : f.Within e root) (hinner : f.Inner e)
    (hfree : ∀ k, f.Within k e → ∃ n, f.node? (some k) = some n ∧ isTiedToFunction n = false) :
    f.Plain e := by
  have hall : ∀ k, f.Within k e → ∃ n, f.node? (some k) = some n ∧
      n.isStatementLevel = false ∧ n.surroundsStatements = false := by
    intro k hk
    induction hk using ReflTransGen.head_induction_on with
    | refl =>
        rcases hinner with ⟨n, hn, hlevel⟩
        rcases hfree e .refl with ⟨m, hm, htied⟩
        obtain rfl := Option.some.inj (hn.symm.trans hm)
        exact ⟨n, hn, hlevel, surroundsStatements_of_not_tied hlevel htied⟩
    | @head k q hlink hpath ih =>
        rcases ih with ⟨m, hm, _, hsurrounds⟩
        have hchild : k ∈ childrenOf m := by
          rw [← children_of_node? hm]
          exact hf.linked.mp hlink
        rcases hlayered (hpath.trans he) hm hsurrounds hchild with ⟨n, hn, hlevel⟩
        rcases hfree k (.head hlink hpath) with ⟨n', hn', htied⟩
        obtain rfl := Option.some.inj (hn.symm.trans hn')
        exact ⟨n, hn, hlevel, surroundsStatements_of_not_tied hlevel htied⟩
  intro k hk
  rcases hall k hk with ⟨n, hn, hlevel, hsurrounds⟩
  exact ⟨n, hn, by rw [Node.isPlain, hlevel, hsurrounds]; rfl⟩

/-- The expression of a proxy, in the statement that is the body of the function. -/
structure Hosted (f : Forest) (root X e : NodeId) : Prop where
  within : f.Within X root
  link : f.Link e X
  statement : f.node? (some X) = some (.operand .expressionStatement (some e))
  plain : f.Plain e

theorem Recognised.exists_hosted {e : NodeId}
    (h : Recognised f (Bindings.ofForest f (some root)) own binding p)
    (hprogram : f.HasProgram root) (hlayered : f.LayeredBelow root)
    (hown : (Bindings.ofForest f (some root)).binding? own = some binding)
    (he : p.expression = some e) : ∃ X, Hosted f root X e := by
  have hf := hprogram.wellFormed
  rcases h.node with ⟨ident, parameters, code, isAsync, isGenerator, hn, hexpression, _⟩
  rw [he] at hexpression
  rcases exists_statement_of_soleExpression? hf hexpression with ⟨c, X, rfl, hX, hlink, hstatement⟩
  have hc : f.Link c p.declaration := by
    apply hf.link_of_slot hn
    simp [Node.slots]
  have hdeclared := Bindings.within_of_binding hprogram hown
  rw [← h.declaration] at hdeclared
  have hwithin : f.Within X root := .head hX (.head hc hdeclared)
  refine ⟨X, hwithin, hlink, hstatement, ?_⟩
  apply plain_of_not_tied hf hlayered (.head hlink hwithin)
  · apply hlayered hwithin hstatement rfl
    exact mem_childrenOf.mpr (List.mem_singleton_self _)
  · intro k hk
    have hlt : e < f.size := lt_size_of_parent hlink
    have hmem : k ∈ f.preorder p.expression := by
      rw [he]
      exact (hf.mem_preorder hlt).mpr hk
    exact not_tied_of_movable (isMovable_of_freeNames? h.names hmem)

/-- The function of a proxy is the only declaration of its name. -/
theorem Recognised.declaredOnce
    (h : Recognised f (Bindings.ofForest f (some root)) own binding p)
    (hprogram : f.HasProgram root)
    (hown : (Bindings.ofForest f (some root)).binding? own = some binding) :
    Bindings.DeclaredOnce f root p.declaration := by
  rcases Bindings.exists_declared hown with ⟨old, hold, horigin⟩
  have hdeclaration : old.origin.declaration = binding.origin.declaration :=
    congrArg Binding.declaration horigin
  have hredeclared : old.origin.redeclared = binding.origin.redeclared :=
    congrArg Binding.redeclared horigin
  have hsingle : binding.redeclared = false := by
    have hstable := h.stable
    rw [Binding.isStable, Bool.and_eq_true, Bool.not_eq_true'] at hstable
    exact hstable.1
  have hsame : p.declaration = old.declaration := h.declaration.trans hdeclaration.symm
  rcases h.node with ⟨ident, parameters, code, isAsync, isGenerator, hn, _⟩
  rw [hsame] at hn ⊢
  exact Bindings.declaredOnce_of_binding hprogram hold (hredeclared.trans hsingle)
    ⟨_, _, _, _, hn⟩

/-- Bound names in the expression of a proxy are names that the walk uses. -/
theorem Hosted.used_of_bound {X e : NodeId} (he : Hosted f root X e) (hprogram : f.HasProgram root)
    (hwhole : (Bindings.ofForest f (some root)).truncated = false) (hi : f.Within i e)
    (hbound : (Bindings.ofForest f (some root)).resolve (some i) ≠ none) :
    ∃ kind name, Used f root kind name i := by
  have hdecl := not_declares_of_plain hprogram.wellFormed he.plain he.link he.statement hi
  exact Bindings.used_of_resolved hwhole hdecl hbound

/-- Only names are parameters. -/
theorem Hosted.used_of_argumentAt? {g : Forest} {X e : NodeId} {args : List Slot}
    (he : Hosted f root X e) (hprogram : f.HasProgram root)
    (hwhole : (Bindings.ofForest f (some root)).truncated = false) (hi : f.Within i e)
    (harg : p.argumentAt? g (Bindings.ofForest f (some root)) args i ≠ none) :
    ∃ kind name, Used f root kind name i := by
  refine he.used_of_bound hprogram hwhole hi fun hnone => harg ?_
  rw [argumentAt?, hnone]
  rfl

/-!
## Calls
-/

/-- A call that is a statement by itself and may be replaced. -/
structure Replaceable (p : StatementProxy) (f : Forest) (b : Bindings) (call X : NodeId)
    (args : List Slot) : Prop where
  link : f.Link call X
  statement : f.node? (some X) = some (.operand .expressionStatement (some call))
  length : args.length = p.parameters.length
  leaves : ∀ s ∈ args, ∃ a n, s = some a ∧ f.node? (some a) = some n ∧ n.isPlain = true ∧
    n.slots = []
  names : ∀ name found, (name, found) ∈ p.freeNames →
    b.lookup (b.scopeOf f (some call)) name = found

/-- What can be copied has no parts. -/
theorem leaf_of_isCopyable {s : Slot} (h : isCopyable f s = true) :
    ∃ a n, s = some a ∧ f.node? (some a) = some n ∧ n.isPlain = true ∧ n.slots = [] := by
  unfold isCopyable satisfies at h
  cases hn : f.node? s with
  | none =>
      rw [hn] at h
      cases h
  | some n =>
      rw [hn] at h
      cases s with
      | none => cases hn
      | some a =>
          refine ⟨a, n, rfl, hn, ?_⟩
          cases n with
          | string _ _ _ | number _ _ | boolean _ | name _ _ => exact ⟨rfl, rfl⟩
          | bare form => cases form <;> first | exact ⟨rfl, rfl⟩ | cases h
          | _ => cases h

theorem replaceable_of_canInline {call : NodeId} {args : List Slot} (hf : f.WellFormed)
    (h : p.canInline f b call args = true) : ∃ X, Replaceable p f b call X args := by
  unfold canInline satisfies at h
  simp only [Bool.and_eq_true, beq_iff_eq, List.all_eq_true] at h
  rcases h with ⟨⟨⟨hlength, hstatement⟩, hargs⟩, hnames⟩
  cases hparent : f.parent (some call) with
  | none =>
      rw [hparent] at hstatement
      cases hstatement
  | some X =>
      rw [hparent] at hstatement
      cases hn : f.node? (some X) with
      | none =>
          rw [hn] at hstatement
          cases hstatement
      | some n =>
          rw [hn, Option.any_some] at hstatement
          split at hstatement
          · have hmem := hf.linked.mp (hparent : f.Link call X)
            rw [children_of_node? hn, mem_childrenOf] at hmem
            obtain rfl := List.mem_singleton.mp hmem
            refine ⟨X, hparent, hn, hlength, fun s hs => leaf_of_isCopyable (hargs s hs), ?_⟩
            exact fun name found hmem => hnames (name, found) hmem
          · cases hstatement

end StatementProxy

namespace Rewrite

open StatementProxy

variable {f : Forest} {b : Bindings} {root call : NodeId} {p : StatementProxy} {args : List Slot}
  {proxies : Array (Option StatementProxy)}

theorem node_of_inlinableCall?
    (h : inlinableCall? b proxies (some root) call f = some (p, args)) :
    f.isAttached (some call) (some root) = true ∧ ∃ callee isOptional inChain,
      f.node? (some call) = some (.call .call callee args isOptional inChain) ∧
        ofCall? proxies b callee = some p ∧ p.canInline f b call args = true := by
  unfold inlinableCall? at h
  rcases Option.bind_eq_some_iff.mp h with ⟨_, hattached, h⟩
  refine ⟨(Option.guard_eq_some' _).mp hattached, ?_⟩
  split at h
  · rename_i callee args' isOptional inChain hn
    rcases Option.bind_eq_some_iff.mp h with ⟨p', hp, h⟩
    rcases Option.bind_eq_some_iff.mp h with ⟨_, hcan, h⟩
    obtain ⟨rfl, rfl⟩ := Prod.mk.inj (Option.some.inj h)
    exact ⟨callee, isOptional, inChain, hn, hp, (Option.guard_eq_some' _).mp hcan⟩
  · cases h

theorem call_of_inlinableCall? (hf : f.WellFormed)
    (h : inlinableCall? b proxies (some root) call f = some (p, args)) :
    f.Within call root ∧ ∃ callee isOptional inChain X,
      f.node? (some call) = some (.call .call callee args isOptional inChain) ∧
        ofCall? proxies b callee = some p ∧ Replaceable p f b call X args := by
  rcases node_of_inlinableCall? h with ⟨hattached, callee, isOptional, inChain, hn, hp, hcan⟩
  rcases replaceable_of_canInline hf hcan with ⟨X, hX⟩
  exact ⟨within_of_isAttached hattached, callee, isOptional, inChain, X, hn, hp, hX⟩

end Rewrite
end Untangle
