import Untangle.Grammar.Class
import Untangle.Proofs.Grammar.Patterns

/-!
# Actions that build expressions

A parsing action that answers an expression or a pattern answers a node above which no statement
has been passed. What is known of nodes that stand aside stays true, so that the actions of a
production need not account for each other's trees.
-/

namespace Untangle
namespace Parse

open Forest

variable {α β : Type}

/-!
## Actions on tiered forests
-/

/-- Where the given nodes stand in a tier, the action leaves a tiered forest tiered, and the nodes
`made` of its answer stand in the tier `top`. -/
def Layers (given : List NodeId) (act : Parse α) (made : α → List NodeId)
    (tier top : Tier := .expression) : Prop :=
  ∀ ⦃ctx s a s'⦄, s.forest.Tiered → (∀ i ∈ given, s.forest.Stands tier i) →
    act ctx s = .ok (a, s') →
      s'.forest.Tiered ∧ (∀ t i, s.forest.Stands t i → s'.forest.Stands t i) ∧
        ∀ i ∈ made a, s'.forest.Stands top i

/-- The action answers a node of an expression or a pattern. -/
abbrev LayersNode (given : List NodeId) (act : Parse NodeId) : Prop :=
  Layers given act fun i => [i]

/-- Nothing is known of the answer. -/
abbrev LayersOnly (given : List NodeId) (act : Parse α) : Prop :=
  Layers given act fun _ => []

namespace Layers

variable {act : Parse α} {k : α → Parse β} {given : List NodeId} {made : α → List NodeId}
  {result : β → List NodeId} {tier top : Tier}

theorem pure {a : α} (h : made a ⊆ given) : Layers given (pure a) made tier tier := by
  intro ctx s b s' htiered hgiven hrun
  rcases run_pure.mp hrun with ⟨rfl, rfl⟩
  exact ⟨htiered, fun _ _ hi => hi, fun i hi => hgiven i (h hi)⟩

theorem throw (e : SyntaxError) : Layers given (throw e) made tier top :=
  fun _ _ _ _ _ _ hrun => absurd hrun run_throw

theorem fail (cause : SyntaxError.Cause) : Layers given (fail cause) made tier top := by
  intro ctx s a s' _ _ hrun
  cases hrun

theorem failAt (offset : Nat) (cause : SyntaxError.Cause) :
    Layers given (failAt offset cause) made tier top :=
  throw _

theorem bind (hact : Layers given act made tier tier)
    (hk : ∀ a, Layers (made a ++ given) (k a) result tier top) :
    Layers given (act >>= k) result tier top := by
  intro ctx s b s'' htiered hgiven hrun
  rcases run_bind.mp hrun with ⟨a, s', ha, hb⟩
  rcases hact htiered hgiven ha with ⟨htiered', hkept, hmade⟩
  have hgiven' : ∀ i ∈ made a ++ given, s'.forest.Stands tier i := by
    intro i hi
    rcases List.mem_append.mp hi with hi | hi
    · exact hmade i hi
    · exact hkept tier i (hgiven i hi)
  rcases hk a htiered' hgiven' hb with ⟨htiered'', hkept', hresult⟩
  exact ⟨htiered'', fun t i hi => hkept' t i (hkept t i hi), hresult⟩

/-- Where a member may stand, an expression may. -/
theorem lift (h : Layers given act made .member top) : Layers given act made .expression top :=
  fun _ _ _ _ htiered hgiven hrun => h htiered (fun i hi => (hgiven i hi).stands) hrun

theorem anywhere (h : Layers [] act made) : Layers given act made tier top := by
  intro ctx s a s' htiered _ hrun
  rcases h htiered (fun i hi => nomatch hi) hrun with ⟨htiered', hkept, hmade⟩
  exact ⟨htiered', hkept, fun i hi => (hmade i hi).stands⟩

/-- Tiers are told by the shape of a forest. -/
theorem reshape (hact : ∀ f, Keeps f act) (hk : ∀ a, Layers given (k a) result tier top) :
    Layers given (act >>= k) result tier top := by
  intro ctx s b s'' htiered hgiven hrun
  rcases run_bind.mp hrun with ⟨a, s', ha, hb⟩
  have halike := (hact s.forest (.refl _) ha).1
  have hgiven' := fun i hi => halike.stands (hgiven i hi)
  rcases hk a (halike.tiered htiered) hgiven' hb with ⟨htiered', hkept, hresult⟩
  exact ⟨htiered', fun t i hi => hkept t i (halike.stands hi), hresult⟩

theorem quiet (hact : Quiet act) (hk : ∀ a, Layers given (k a) result tier top) :
    Layers given (act >>= k) result tier top := by
  intro ctx s b s'' htiered hgiven hrun
  rcases run_bind.mp hrun with ⟨a, s', ha, hb⟩
  have hsame := hact ha
  rw [← hsame] at htiered hgiven
  obtain ⟨htiered', hkept, hresult⟩ := hk a htiered hgiven hb
  exact ⟨htiered', hsame ▸ hkept, hresult⟩

theorem ite {c : Prop} [Decidable c] {other : Parse α} (h : Layers given act made tier top)
    (hother : Layers given other made tier top) :
    Layers given (if c then act else other) made tier top := by
  split
  · exact h
  · exact hother

theorem optionally {c : Prop} [Decidable c] {act : Parse Unit} {k : Unit → Parse β}
    (hact : Quiet act) (hk : ∀ u, Layers given (k u) result tier top) :
    Layers given (if c then act >>= k else k ()) result tier top :=
  ite (quiet hact hk) (hk ())

theorem withReader {f : Context → Context} (h : Layers given act made tier top) :
    Layers given (withReader f act) made tier top :=
  fun _ _ _ _ htiered hgiven hrun => h htiered hgiven hrun

theorem deeper (h : Layers given act made tier top) : Layers given (deeper act) made tier top :=
  .quiet .read fun _ => .ite (.fail _) (.withReader h)

/-- A value that is already there, as behind a choice of several. -/
theorem chosen {a : α} (h : Layers given (k a) result tier top) :
    Layers given (Pure.pure a >>= k) result tier top := by
  rwa [pure_bind]

theorem forget {top' : Tier} (h : Layers given act made tier top) :
    Layers given act (fun _ => []) tier top' := by
  intro ctx s a s' htiered hgiven hrun
  rcases h htiered hgiven hrun with ⟨htiered', hkept, _⟩
  exact ⟨htiered', hkept, fun i hi => nomatch hi⟩

variable {n : Node Slot} {start stop : Nat}

theorem inner_of_made {f : Forest} {j : NodeId}
    (h : j ∈ if n.isStatementLevel then [] else [(f.add n start stop).1]) :
    (f.add n start stop).2.Inner j := by
  split at h
  · cases h
  · obtain rfl := List.mem_singleton.mp h
    exact inner_add_self (Bool.eq_false_iff.mpr ‹_›)

/-- A new node above expressions, or one that may stand above anything but is no class. -/
theorem addAny
    (h : (n.surroundsStatements = true ∧ n.isClass = false) ∨ childrenOf n ⊆ given) :
    Layers given (add n start stop) fun i => if n.isStatementLevel then [] else [i] := by
  intro ctx s i s' htiered hgiven hrun
  cases hrun
  have hinner : childrenOf n ⊆ given → ∀ c ∈ childrenOf n, s.forest.Inner c :=
    fun hsub c hc => hgiven c (hsub hc)
  refine ⟨htiered.add ?_ ?_, fun _ _ hi => hi.add, ?_⟩
  · exact h.imp And.left hinner
  · intro hclass c hc
    rcases h with ⟨_, hnot⟩ | hsub
    · cases hnot.symm.trans hclass
    · exact (hinner hsub c hc).stands
  · exact fun j => inner_of_made

/-- A new node of an expression, above nodes of expressions. -/
theorem add (hlevel : n.isStatementLevel = false) (h : childrenOf n ⊆ given) :
    LayersNode given (add n start stop) := by
  have hadd := @addAny given n start stop (.inr h)
  simpa only [hlevel, Bool.false_eq_true, if_false] using hadd

/-- A new statement above expressions. -/
theorem addBelow (h : childrenOf n ⊆ given) : LayersOnly given (Parse.add n start stop) :=
  (addAny (.inr h)).forget

/-- A new statement that may stand above statements. -/
theorem addAround (h : n.surroundsStatements = true) (hclass : n.isClass = false) :
    LayersOnly given (Parse.add n start stop) :=
  (addAny (.inl ⟨h, hclass⟩)).forget

/-- A new node that may stand above members, above members. -/
theorem addMembers (hlevel : n.surroundsStatements = true) (h : childrenOf n ⊆ given) :
    Layers given (Parse.add n start stop) (fun i => if n.isStatementLevel then [] else [i])
      .member := by
  intro ctx s i s' htiered hgiven hrun
  cases hrun
  exact ⟨htiered.add (.inl hlevel) fun _ c hc => hgiven c (h hc), fun _ _ hi => hi.add,
    fun j => inner_of_made⟩

/-- A new member that may stand above statements. -/
theorem addMember (hmember : n.isMemberLevel = true) (h : n.surroundsStatements = true)
    (hclass : n.isClass = false) :
    Layers given (Parse.add n start stop) (fun i => [i]) tier .member := by
  intro ctx s i s' htiered _ hrun
  cases hrun
  refine ⟨htiered.add (.inl h) fun hclass' => ?_, fun _ _ hi => hi.add, ?_⟩
  · cases hclass.symm.trans hclass'
  · intro j hj
    obtain rfl := List.mem_singleton.mp hj
    exact ⟨n, node?_add_self, hmember⟩

/-- A new node that ends where another node ends. -/
theorem addEnding {last : NodeId} (hlevel : n.isStatementLevel = false)
    (h : childrenOf n ⊆ given) : LayersNode given (endOf last >>= Parse.add n start) :=
  quiet (quiet_endOf _) fun _ => add hlevel h

theorem addAroundEnding {last : NodeId} (h : n.surroundsStatements = true)
    (hclass : n.isClass = false) : LayersOnly given (endOf last >>= Parse.add n start) :=
  quiet (quiet_endOf _) fun _ => addAround h hclass

end Layers

/-!
## Repetitions
-/

abbrev LayersTurn (given : List NodeId) (turn : Parse (Turn NodeId)) : Prop :=
  Layers given turn Turn.items

abbrev LayersList (given : List NodeId) (act : Parse (List NodeId)) : Prop :=
  Layers given act id

theorem layersList_repeated {turn : Parse (Turn NodeId)}
    (hturn : ∀ given, LayersTurn given turn) (fuel : Nat) (given : List NodeId) :
    LayersList given (repeated fuel turn) := by
  have hfrom : ∀ given reversed, reversed ⊆ given →
      LayersList given (repeatFrom turn fuel reversed) := by
    induction fuel with
    | zero => exact fun _ _ _ => .fail _
    | succ fuel ih =>
        intro given reversed hsub
        refine .bind (hturn given) fun t => ?_
        cases t with
        | stop => exact .pure fun i hi => hsub (List.mem_reverse.mp hi)
        | skip => exact ih _ _ hsub
        | last item =>
            refine .pure fun i hi => ?_
            exact List.cons_subset_cons item hsub (List.mem_reverse.mp hi)
        | item item => exact ih _ _ (List.cons_subset_cons item hsub)
  exact hfrom given [] (List.nil_subset _)

theorem layersOnly_repeated {turn : Parse (Turn NodeId)}
    (hturn : ∀ given, LayersOnly given turn) (fuel : Nat) (given : List NodeId) :
    LayersOnly given (repeated fuel turn) := by
  have hfrom : ∀ reversed, LayersOnly given (repeatFrom turn fuel reversed) := by
    induction fuel with
    | zero => exact fun _ => .fail _
    | succ fuel ih =>
        intro reversed
        refine .bind (hturn given) fun t => ?_
        cases t with
        | stop => exact .pure (List.nil_subset _)
        | skip => exact ih reversed
        | last item => exact .pure (List.nil_subset _)
        | item item => exact ih (item :: reversed)
  exact hfrom []

variable {given : List NodeId}

theorem layers_beforeComma {i : NodeId} (h : i ∈ given) : LayersTurn given (beforeComma i) := by
  refine .quiet (quiet_eatMark _) fun _ => ?_
  exact .ite (.pure (by simpa [Turn.items])) (.pure (by simpa [Turn.items]))

theorem layersOnly_beforeComma (i : NodeId) : LayersOnly given (beforeComma i) :=
  .quiet (quiet_eatMark _) fun _ => .ite (.pure (List.nil_subset _)) (.pure (List.nil_subset _))

/-!
## Names
-/

theorem layersNode_anyName : LayersNode given anyName :=
  .quiet quiet_token fun _ => .quiet quiet_advance fun _ => .add rfl (List.nil_subset _)

theorem layersNode_identifier : LayersNode given identifier := by
  refine .quiet quiet_token fun t => ?_
  refine .quiet quiet_isAtIdentifier fun found => ?_
  refine .ite ?_ (.ite (.fail _) (.fail _))
  refine .ite (.fail _) ?_
  refine .quiet .read fun ctx => .ite (.fail _) ?_
  exact layersNode_anyName

theorem layersNode_privateName : LayersNode given privateName := by
  refine .quiet quiet_token fun t => ?_
  refine .quiet (quiet_expect _) fun _ => ?_
  exact .add rfl (List.nil_subset _)

theorem layersNode_memberName : LayersNode given memberName := by
  refine .quiet quiet_kind fun k => ?_
  exact .ite layersNode_privateName (.ite layersNode_anyName (.fail _))

theorem layersNode_copyIdentifier (i : NodeId) : LayersNode given (copyIdentifier i) := by
  refine .quiet .get fun state => ?_
  refine .quiet (quiet_startOf _) fun start => ?_
  refine .quiet (quiet_endOf _) fun stop => ?_
  exact .add rfl (List.nil_subset _)

end Parse

namespace Descent

open Forest Parse

/-- Every goal but a statement is answered by a node of an expression or a pattern. -/
def LayersTrees (d : Descent) : Prop :=
  ∀ goal given, Layers given (d.parse goal) fun i => if goal = .statement then [] else [i]

variable {d : Descent} {given : List NodeId}

/-!
## Goals
-/

theorem LayersTrees.statement (hd : d.LayersTrees) : LayersOnly given d.statement :=
  hd .statement given

theorem LayersTrees.assignment (hd : d.LayersTrees) : LayersNode given d.assignment :=
  hd .assignment given

theorem LayersTrees.bindingTarget (hd : d.LayersTrees) : LayersNode given d.bindingTarget :=
  hd .bindingTarget given

/-!
## Property names
-/

theorem layersNode_literalKey : LayersNode given literalKey := by
  refine .quiet quiet_token fun t => ?_
  refine .quiet quiet_advance fun _ => ?_
  refine .add ?_ ?_
  · split <;> rfl
  · split <;> exact List.nil_subset _

theorem layers_propertyName (hd : d.LayersTrees) (allowPrivate : Bool) :
    Layers given (d.propertyName allowPrivate) fun key => [key.1] := by
  have hkey : ∀ {i : NodeId} {computed : Bool}, Layers (i :: given)
      (Pure.pure (i, computed) : Parse (NodeId × Bool)) fun key => [key.1] := by
    intro i computed
    exact .pure (by simp)
  refine .quiet quiet_kind fun k => ?_
  split
  · refine .quiet quiet_advance fun _ => ?_
    refine .bind (.withReader hd.assignment) fun key => ?_
    exact .quiet (quiet_expectMark _) fun _ => hkey
  · exact .bind layersNode_literalKey fun key => hkey
  · exact .bind layersNode_literalKey fun key => hkey
  · exact .bind layersNode_literalKey fun key => hkey
  · exact .ite (.bind layersNode_privateName fun key => hkey) (.fail _)
  · exact .ite (.bind layersNode_anyName fun key => hkey) (.fail _)

/-!
## Binding patterns
-/

theorem layersNode_defaultValue (hd : d.LayersTrees) {target : NodeId} (h : target ∈ given) :
    LayersNode given (d.defaultValue target) := by
  refine .quiet (quiet_startOf _) fun start => ?_
  refine .bind (.withReader hd.assignment) fun value => ?_
  exact .addEnding rfl (by simp [childrenOf, Node.slots, h])

theorem layersNode_bindingElement (hd : d.LayersTrees) :
    LayersNode given d.bindingElement := by
  refine .bind hd.bindingTarget fun target => ?_
  refine .quiet (quiet_eatMark _) fun found => ?_
  exact .ite (layersNode_defaultValue hd (by simp)) (.pure (by simp))

theorem layersNode_restElement (hd : d.LayersTrees) : LayersNode given d.restElement := by
  refine .quiet quiet_offset fun start => ?_
  refine .quiet (quiet_expectMark _) fun _ => ?_
  refine .bind hd.bindingTarget fun target => ?_
  refine .quiet (quiet_isAtMark _) fun found => .ite (.fail _) ?_
  exact .addEnding rfl (by simp [childrenOf, Node.slots])

theorem layersNode_hole : LayersNode given hole := by
  refine .quiet quiet_offset fun start => ?_
  refine .bind (.add rfl (List.nil_subset _)) fun i => ?_
  exact .quiet quiet_advance fun _ => .pure (by simp)

theorem layersTurn_arrayBinding (hd : d.LayersTrees) : LayersTurn given d.arrayBindingTurn := by
  refine .quiet quiet_kind fun k => ?_
  split
  · exact .pure (List.nil_subset _)
  · exact .bind layersNode_hole fun i => .pure (by simp [Turn.items])
  · refine .bind (layersNode_restElement hd) fun i => ?_
    exact .quiet (quiet_isAtMark _) fun found => .ite (.pure (by simp [Turn.items])) (.fail _)
  · exact .bind (layersNode_bindingElement hd) fun i => layers_beforeComma (by simp)

theorem layersNode_arrayBinding (hd : d.LayersTrees) : LayersNode given d.arrayBinding := by
  refine .quiet quiet_offset fun start => ?_
  refine .quiet (quiet_expectMark _) fun _ => ?_
  refine .bind (layersList_repeated (fun _ => layersTurn_arrayBinding hd) _ _) fun elements => ?_
  refine .quiet (quiet_expectMark _) fun stop => ?_
  exact .add rfl (by simp [childrenOf, Node.slots, List.filterMap_map])

theorem layersNode_objectRest : LayersNode given objectRest := by
  refine .quiet quiet_offset fun start => ?_
  refine .quiet quiet_advance fun _ => ?_
  refine .bind layersNode_identifier fun target => ?_
  refine .quiet (quiet_endOf _) fun stop => ?_
  refine .bind (.add rfl (by simp [childrenOf, Node.slots])) fun i => ?_
  exact .quiet (quiet_isAtMark _) fun found => .ite (.pure (by simp)) (.fail _)

theorem layersNode_bindingProperty (hd : d.LayersTrees) :
    LayersNode given d.bindingProperty := by
  refine .quiet quiet_offset fun start => ?_
  refine .quiet quiet_isAtIdentifier fun isPlain => ?_
  refine .quiet quiet_isAtAwait fun isAwait => .ite (.fail _) ?_
  refine .bind (layers_propertyName hd false) fun (key, computed) => ?_
  refine .quiet (quiet_eatMark _) fun found => .ite ?_ (.ite ?_ (.fail _))
  · refine .bind (layersNode_bindingElement hd) fun value => ?_
    exact .addEnding rfl (by simp [childrenOf, Node.slots])
  · refine .bind (layersNode_copyIdentifier key) fun value => ?_
    refine .quiet (quiet_eatMark _) fun found => .ite ?_ ?_
    · refine .bind (layersNode_defaultValue hd (by simp)) fun value => ?_
      exact .addEnding rfl (by simp [childrenOf, Node.slots])
    · exact .addEnding rfl (by simp [childrenOf, Node.slots])

theorem layersTurn_objectBinding (hd : d.LayersTrees) :
    LayersTurn given d.objectBindingTurn := by
  refine .quiet quiet_kind fun k => ?_
  split
  · exact .pure (List.nil_subset _)
  · exact .bind layersNode_objectRest fun i => .pure (by simp [Turn.items])
  · exact .bind (layersNode_bindingProperty hd) fun i => layers_beforeComma (by simp)

theorem layersNode_objectBinding (hd : d.LayersTrees) : LayersNode given d.objectBinding := by
  refine .quiet quiet_offset fun start => ?_
  refine .quiet (quiet_expectMark _) fun _ => ?_
  refine .bind (layersList_repeated (fun _ => layersTurn_objectBinding hd) _ _)
    fun properties => ?_
  refine .quiet (quiet_expectMark _) fun stop => ?_
  exact .add rfl (by simp [childrenOf, Node.slots, List.filterMap_map])

theorem layersNode_bindingTarget (hd : d.LayersTrees) :
    LayersNode given d.bindingTargetProduction := by
  refine .quiet quiet_kind fun k => ?_
  split
  · exact layersNode_objectBinding hd
  · exact layersNode_arrayBinding hd
  · exact layersNode_identifier

/-!
## Functions
-/

theorem layersOnly_block (hd : d.LayersTrees) : LayersOnly given d.block := by
  refine .quiet quiet_offset fun start => ?_
  refine .quiet (quiet_expectMark _) fun _ => ?_
  refine .bind (layersOnly_repeated (fun _ => ?_) _ _) fun statements => ?_
  · refine .quiet quiet_kind fun k => ?_
    split
    · exact .pure (List.nil_subset _)
    · exact .fail _
    · exact .bind hd.statement fun i => .pure (List.nil_subset _)
  · exact .quiet (quiet_expectMark _) fun stop => .addAround rfl rfl

theorem layersTurn_parameter (hd : d.LayersTrees) : LayersTurn given d.parameterTurn := by
  refine .quiet quiet_kind fun k => ?_
  split
  · exact .pure (List.nil_subset _)
  · refine .bind (layersNode_restElement hd) fun rest => ?_
    exact .quiet (quiet_isAtMark _) fun found => .ite (.fail _) (.pure (by simp [Turn.items]))
  · exact .bind (layersNode_bindingElement hd) fun i => layers_beforeComma (by simp)

theorem layersOnly_parameters (hd : d.LayersTrees) : LayersOnly given d.parameters := by
  refine .quiet (quiet_expectMark _) fun _ => ?_
  refine .bind (layersList_repeated (fun _ => layersTurn_parameter hd) _ _) fun items => ?_
  exact .quiet (quiet_expectMark _) fun stop => .pure (List.nil_subset _)

theorem layers_functionRest (hd : d.LayersTrees) (form : FunctionForm) (name : Slot)
    (start : Nat) (isAsync isGenerator : Bool) :
    Layers given (d.functionRest form name start isAsync isGenerator)
      fun i => if form = .declaration then [] else [i] := by
  refine @Layers.bind _ _ _ _ _ (fun _ => []) _ _ _ (.withReader ?_) fun (parameters, body) => ?_
  · refine .bind (layersOnly_parameters hd) fun parameters => ?_
    refine .bind (.withReader (layersOnly_block hd)) fun body => ?_
    exact .pure (List.nil_subset _)
  · refine .quiet (quiet_endOf _) fun stop => ?_
    cases form <;> exact .addAny (.inl ⟨rfl, rfl⟩)

theorem layersOnly_functionDeclaration (hd : d.LayersTrees) (isAsync : Bool) :
    LayersOnly given (d.functionDeclaration isAsync) := by
  refine .quiet quiet_offset fun start => ?_
  refine .optionally quiet_advance fun _ => ?_
  refine .quiet (quiet_expect _) fun _ => ?_
  refine .quiet (quiet_eatMark _) fun isGenerator => ?_
  refine .bind layersNode_identifier fun name => ?_
  exact layers_functionRest hd .declaration (some name) start isAsync isGenerator

theorem layersNode_functionExpression (hd : d.LayersTrees) (isAsync : Bool) :
    LayersNode given (d.functionExpression isAsync) := by
  refine .quiet quiet_offset fun start => ?_
  refine .optionally quiet_advance fun _ => ?_
  refine .quiet (quiet_expect _) fun _ => ?_
  refine .quiet (quiet_eatMark _) fun isGenerator => ?_
  refine @Layers.bind _ _ _ _ _ (fun _ => []) _ _ _ (.withReader ?_) fun name => ?_
  · refine .quiet quiet_isAtIdentifier fun found => .ite ?_ (.pure (List.nil_subset _))
    exact .bind layersNode_identifier fun name => .pure (List.nil_subset _)
  · exact layers_functionRest hd .expression name start isAsync isGenerator

theorem layersNode_methodFunction (hd : d.LayersTrees) (head : MethodHead) :
    LayersNode given (d.methodFunction head) :=
  .quiet quiet_offset fun start =>
    layers_functionRest hd .expression none start head.isAsync head.isGenerator

end Descent
end Untangle
