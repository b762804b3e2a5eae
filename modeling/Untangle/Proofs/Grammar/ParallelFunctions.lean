import Untangle.Grammar.Class
import Untangle.Proofs.Grammar.Parallel

/-!
# Parallel readings of patterns, functions and classes
-/

namespace Untangle
namespace Parse

/-!
## Names
-/

theorem same_anyName : Same anyName anyName := by
  refine .token fun t₁ t₂ ht => .next same_advance fun _ => ?_
  rw [ht.value]
  exact same_add ..

theorem same_identifier : Same identifier identifier := by
  refine .token fun t₁ t₂ ht => .next same_isAtIdentifier fun found => .ite ?_ ?_
  · rw [ht.hidesKeyword]
    refine .ite (.fail _) (.read fun ctx₁ ctx₂ hctx => ?_)
    rw [hctx.inAsync, ht.value]
    exact .ite (.fail _) same_anyName
  · split
    · exact .fail _
    · exact .fail _

theorem same_privateName : Same privateName privateName := by
  refine .token fun t₁ t₂ ht => .any (any_expect _) fun _ _ => ?_
  rw [ht.value]
  exact same_add ..

theorem same_memberName : Same memberName memberName :=
  .kind (fun _ => .ite same_privateName (.ite same_anyName (.fail _))) (Parallel.atEnd (.fail _))

theorem same_copyIdentifier (i : NodeId) : Same (copyIdentifier i) (copyIdentifier i) := by
  refine .get fun s₁ s₂ hforest => ?_
  rw [Forest.identifierText?_eq_of_withoutSpans hforest]
  exact .any (any_startOf i) fun _ _ => same_addEnding ..

theorem same_semicolon : Same semicolon semicolon := by
  refine .next (same_eatMark (by decide)) fun found => .ite (.pure rfl) ?_
  refine .token fun t₁ t₂ ht => ?_
  rw [ht.endsStatement]
  exact .ite (.pure rfl) (.fail _)

end Parse

namespace Descent

open Parse

/-- Descents that answer every goal alike. What must start at a closing mark is refused. -/
structure Alike (d₁ d₂ : Descent) : Prop where
  parse : ∀ goal, Same (d₁.parse goal) (d₂.parse goal)
  refuses_assignment : Refuses .expressionExpected d₁.assignment
  refuses_bindingTarget : Refuses .identifierExpected d₁.bindingTarget

variable {d₁ d₂ : Descent}

theorem Alike.assignment (hd : d₁.Alike d₂) : Same d₁.assignment d₂.assignment :=
  hd.parse .assignment

theorem Alike.bindingTarget (hd : d₁.Alike d₂) : Same d₁.bindingTarget d₂.bindingTarget :=
  hd.parse .bindingTarget

theorem Alike.statement (hd : d₁.Alike d₂) : Same d₁.statement d₂.statement :=
  hd.parse .statement

/-!
## Property names
-/

/-- A literal keeps its text, which is not the same behind the element. There the bracket is
taken. -/
theorem same_literalKey : Same literalKey literalKey := by
  refine .tokenThenAdvance fun t₁ t₂ ht hkind => ?_
  dsimp only
  rw [hkind, ht.value, ht.number, ht.text hkind, ht.loneSurrogate]
  exact same_add ..

theorem same_propertyName (hd : d₁.Alike d₂) (allowPrivate : Bool) :
    Same (d₁.propertyName allowPrivate) (d₂.propertyName allowPrivate) := by
  refine .kind (fun kind => ?_) (Parallel.atEnd (.fail _))
  split
  · refine .next same_advance fun _ => .next (.allowingIn hd.assignment) fun key => ?_
    exact .any (any_expectMark _) fun _ _ => .pure rfl
  · exact .next same_literalKey fun key => .pure rfl
  · exact .next same_literalKey fun key => .pure rfl
  · exact .next same_literalKey fun key => .pure rfl
  · exact .ite (.next same_privateName fun key => .pure rfl) (.fail _)
  · exact .ite (.next same_anyName fun key => .pure rfl) (.fail _)

/-!
## Binding patterns
-/

theorem same_defaultValue (hd : d₁.Alike d₂) (target : NodeId) :
    Same (d₁.defaultValue target) (d₂.defaultValue target) := by
  refine .any (any_startOf target) fun start start' => ?_
  exact .next (.allowingIn hd.assignment) fun value => same_addEnding ..

theorem same_bindingElement (hd : d₁.Alike d₂) : Same d₁.bindingElement d₂.bindingElement :=
  .next hd.bindingTarget fun target => .next (same_eatMark (by decide)) fun found =>
    .ite (same_defaultValue hd target) (.pure rfl)

theorem same_restElement (hd : d₁.Alike d₂) : Same d₁.restElement d₂.restElement := by
  refine .any any_offset fun start start' => .any (any_expectMark _) fun _ _ => ?_
  refine .next hd.bindingTarget fun target => .next (same_isAtMark (by decide)) fun found => ?_
  exact .ite (.fail _) (same_addEnding ..)

theorem same_hole : Same hole hole := by
  refine .any any_offset fun start start' => .next (same_add ..) fun i => ?_
  exact .next same_advance fun _ => .pure rfl

theorem parallel_arrayBindingTurn (hd : d₁.Alike d₂) :
    Parallel (fun t s => t.Ends ∧ s.AtBracket) Eq d₁.arrayBindingTurn d₂.arrayBindingTurn := by
  refine .kind (fun kind => ?_) fun _ _ _ _ _ hs => .alone ⟨trivial, hs.bare⟩
  split
  · exact .pure rfl
  · exact .staying (.next same_hole fun i => .pure rfl)
  · refine .next (same_restElement hd) fun rest => .isAtBracket (fun found => ?_) ?_
    · exact .ite (.pure rfl) (.fail _)
    · exact fun _ _ _ _ _ hs => .alone ⟨trivial, hs.bare⟩
  · exact .staying (.next (same_bindingElement hd) fun i => same_beforeComma i)

/-- A list in brackets from behind the first one. Where the mark behind the element is a bracket, it
closes the list. -/
theorem same_arrayRest {turn₁ turn₂ : Parse (Turn NodeId)} {form : ListForm}
    (hturn : Parallel (fun t s => t.Ends ∧ s.AtBracket) Eq turn₁ turn₂) (fuel₁ fuel₂ : Nat)
    (start start' : Nat) :
    Same
      (do
        let elements ← repeated fuel₁ turn₁
        let stop ← expectMark .closeBracket
        add (.list form (elements.map some)) start stop)
      (do
        let elements ← repeated fuel₂ turn₂
        let stop ← expectMark .closeBracket
        add (.list form (elements.map some)) start' stop) := by
  refine .bindLeaving (parallel_repeated hturn fuel₁ fuel₂) (fun l => ⟨l, rfl⟩)
    (fun elements _ heq => ?_) fun ctx elements s i s' hs hrun => .inl ?_
  · subst heq
    exact .any (any_expectMark _) fun _ _ => same_add ..
  · obtain ⟨stop, t, hexpect, hadd⟩ := run_bind.mp hrun
    exact (same_add _ start stop start stop).past (past_expect hs hexpect) hadd

theorem same_arrayBinding (hd : d₁.Alike d₂) : Same d₁.arrayBinding d₂.arrayBinding :=
  .any any_offset fun _ _ => .any (any_expectMark _) fun _ _ =>
    same_arrayRest (parallel_arrayBindingTurn hd) ..

theorem same_objectRest : Same objectRest objectRest := by
  refine .any any_offset fun start start' => .next same_advance fun _ => ?_
  refine .next same_identifier fun target => .any (any_endOf target) fun _ _ => ?_
  refine .next (same_add ..) fun rest => .next (same_isAtMark (by decide)) fun found => ?_
  exact .ite (.pure rfl) (.fail _)

theorem same_bindingProperty (hd : d₁.Alike d₂) : Same d₁.bindingProperty d₂.bindingProperty := by
  refine .any any_offset fun start start' => .next same_isAtIdentifier fun isPlain => ?_
  refine .next same_isAtAwait fun isAwait => .ite (.fail _) ?_
  refine .next (same_propertyName hd false) fun (key, computed) => ?_
  refine .next (same_eatMark (by decide)) fun found => .ite ?_ (.ite ?_ (.fail _))
  · exact .next (same_bindingElement hd) fun value => same_addEnding ..
  · refine .next (same_copyIdentifier key) fun value => ?_
    refine .next (same_eatMark (by decide)) fun found => .ite ?_ (same_addEnding ..)
    exact .next (same_defaultValue hd value) fun value => same_addEnding ..

theorem same_objectBindingTurn (hd : d₁.Alike d₂) :
    Same d₁.objectBindingTurn d₂.objectBindingTurn := by
  have hproperty : Same (d₁.bindingProperty >>= beforeComma) (d₂.bindingProperty >>= beforeComma) :=
    .next (same_bindingProperty hd) fun i => same_beforeComma i
  refine .kind (fun kind => ?_) hproperty.atEnd
  split
  · exact .pure rfl
  · exact .next same_objectRest fun rest => .pure rfl
  · exact hproperty

theorem same_objectBinding (hd : d₁.Alike d₂) : Same d₁.objectBinding d₂.objectBinding := by
  refine .any any_offset fun start start' => .any (any_expectMark _) fun _ _ => ?_
  refine .next (same_repeated (same_objectBindingTurn hd) ..) fun properties => ?_
  exact .any (any_expectMark _) fun _ _ => same_add ..

theorem same_bindingTargetProduction (hd : d₁.Alike d₂) :
    Same d₁.bindingTargetProduction d₂.bindingTargetProduction := by
  refine .kind (fun kind => ?_) same_identifier.atEnd
  split
  · exact same_objectBinding hd
  · exact same_arrayBinding hd
  · exact same_identifier

end Descent

/-!
## Literals that become patterns
-/

namespace Pattern

open Parse

variable {convert₁ convert₂ : NodeId → Parse Unit}

theorem same_convertElement (hconvert : ∀ i, Same (convert₁ i) (convert₂ i)) (element : NodeId) :
    Same (convertElement convert₁ element) (convertElement convert₂ element) := by
  refine .next (same_node? element) fun node => ?_
  extract_lets value
  refine .next (same_node? value) fun node => ?_
  split
  · exact same_setNode ..
  · exact hconvert value

theorem same_invalidAt (i : NodeId) : Same (invalidAt i : Parse Unit) (invalidAt i) :=
  .any (any_startOf i) fun _ _ => .failAt ..

theorem same_convertRest (hconvert : ∀ i, Same (convert₁ i) (convert₂ i)) (inObject isLast : Bool)
    (element target : NodeId) :
    Same (convertRest convert₁ inObject isLast element target)
      (convertRest convert₂ inObject isLast element target) := by
  refine .ite (.any (any_startOf element) fun _ _ => .failAt ..) (.ite ?_ ?_)
  · refine .next (same_isTargetAt target) fun found => .ite (same_setNode ..) ?_
    exact .next (same_invalidAt target) fun _ => same_setNode ..
  · exact .next (hconvert target) fun _ => same_setNode ..

theorem same_convertMember (hconvert : ∀ i, Same (convert₁ i) (convert₂ i))
    (inObject isLast : Bool) (element : NodeId) :
    Same (convertMember convert₁ inObject isLast element)
      (convertMember convert₂ inObject isLast element) := by
  refine .next (same_node? element) fun node => ?_
  split
  · exact same_convertRest hconvert inObject isLast element _
  · exact same_convertElement hconvert element
  · exact .pure rfl
  · exact .pure rfl
  · exact same_convertElement hconvert element
  · exact same_invalidAt element

theorem same_convertMembers (hconvert : ∀ i, Same (convert₁ i) (convert₂ i)) (inObject : Bool)
    (elements : List Slot) :
    Same (convertMembers convert₁ inObject elements)
      (convertMembers convert₂ inObject elements) := by
  induction elements with
  | nil => exact .pure rfl
  | cons element rest ih =>
      cases element with
      | none => exact ih
      | some i =>
          exact .next (same_convertMember hconvert inObject rest.isEmpty i) fun _ => ih

theorem same_convertWith (depth₁ depth₂ : Nat) (i : NodeId) :
    Same (convertWith depth₁ i) (convertWith depth₂ i) := by
  induction depth₁ generalizing depth₂ i with
  | zero => exact .fail _
  | succ depth₁ ih =>
      have hmore : ∀ depth₂, Same (convertWith (depth₁ + 1) i) (convertWith (depth₂ + 1) i) := by
        intro depth₂
        refine .next (same_node? i) fun node => ?_
        split
        · exact .next (same_convertMembers (ih depth₂) true _) fun _ => same_setNode ..
        · exact .next (same_convertMembers (ih depth₂) false _) fun _ => same_setNode ..
        · exact .ite (.pure rfl) (same_invalidAt i)
        · exact same_invalidAt i
      cases depth₂ with
      | zero => exact (hmore 0).giveUp
      | succ depth₂ => exact hmore depth₂

theorem same_convert (i : NodeId) : Same (convert i) (convert i) :=
  .read fun _ _ _ => same_convertWith _ _ i

end Pattern

/-!
## Functions and methods
-/

namespace Descent

open Parse

variable {d₁ d₂ : Descent}

theorem same_blockTurn (hd : d₁.Alike d₂) : Same d₁.blockTurn d₂.blockTurn := by
  have hstatement : Same (d₁.statement >>= fun i => pure (Turn.item i))
      (d₂.statement >>= fun i => pure (Turn.item i)) := .next hd.statement fun i => .pure rfl
  refine .kind (fun kind => ?_) hstatement.atEnd
  split
  · exact .pure rfl
  · exact .fail _
  · exact hstatement

theorem same_block (hd : d₁.Alike d₂) : Same d₁.block d₂.block := by
  refine .any any_offset fun start start' => .any (any_expectMark _) fun _ _ => ?_
  refine .next (same_repeated (same_blockTurn hd) ..) fun statements => ?_
  exact .any (any_expectMark _) fun _ _ => same_add ..

theorem same_parameterTurn (hd : d₁.Alike d₂) : Same d₁.parameterTurn d₂.parameterTurn := by
  refine .kind (fun kind => ?_) (Refuses.atEnd hd.refuses_bindingTarget.bind.bind)
  split
  · exact .pure rfl
  · refine .next (same_restElement hd) fun rest => .next (same_isAtMark (by decide)) fun found => ?_
    exact .ite (.fail _) (.pure rfl)
  · exact .next (same_bindingElement hd) fun i => same_beforeComma i

theorem same_parameters (hd : d₁.Alike d₂) : Same d₁.parameters d₂.parameters := by
  refine .any (any_expectMark _) fun _ _ => ?_
  refine .next (same_repeated (same_parameterTurn hd) ..) fun items => ?_
  exact .any (any_expectMark _) fun _ _ => .pure rfl

theorem same_functionBody (hd : d₁.Alike d₂) : Same d₁.functionBody d₂.functionBody :=
  .allowingIn (same_block hd)

theorem same_functionRest (hd : d₁.Alike d₂) (form : FunctionForm) (name : Slot)
    (start start' : Nat) (isAsync isGenerator : Bool) :
    Same (d₁.functionRest form name start isAsync isGenerator)
      (d₂.functionRest form name start' isAsync isGenerator) := by
  refine .next (.inFunction _ _ ?_) fun (parameters, body) => same_addEnding ..
  refine .next (same_parameters hd) fun parameters => ?_
  exact .next (same_functionBody hd) fun body => .pure rfl

theorem same_functionDeclaration (hd : d₁.Alike d₂) (isAsync : Bool) :
    Same (d₁.functionDeclaration isAsync) (d₂.functionDeclaration isAsync) := by
  refine .any any_offset fun start start' => .optionally same_advance fun _ => ?_
  refine .any (any_expect _) fun _ _ => .next (same_eatMark (by decide)) fun isGenerator => ?_
  exact .next same_identifier fun name => same_functionRest hd ..

theorem same_functionExpression (hd : d₁.Alike d₂) (isAsync : Bool) :
    Same (d₁.functionExpression isAsync) (d₂.functionExpression isAsync) := by
  refine .any any_offset fun start start' => .optionally same_advance fun _ => ?_
  refine .any (any_expect _) fun _ _ => .next (same_eatMark (by decide)) fun isGenerator => ?_
  refine .next (.inFunction _ _ ?_) fun name => same_functionRest hd ..
  refine .next same_isAtIdentifier fun found => .ite ?_ (.pure rfl)
  exact .next same_identifier fun name => .pure rfl

theorem same_methodHead : Same methodHead methodHead := by
  refine .token fun t₁ t₂ ht => .scanner fun c₁ c₂ hc => ?_
  rw [ht.isContextual, hc.asyncModifies]
  refine .optionally same_advance fun _ => .next (same_eatMark (by decide)) fun isGenerator => ?_
  refine .token fun w₁ w₂ hw => .scanner fun e₁ e₂ he => ?_
  rw [hw.isContextual, hw.isContextual, he.accessorFollows, hw.value]
  exact .ite (.next same_advance fun _ => .pure rfl) (.pure rfl)

theorem same_methodFunction (hd : d₁.Alike d₂) (head : MethodHead) :
    Same (d₁.methodFunction head) (d₂.methodFunction head) :=
  .any any_offset fun _ _ => same_functionRest hd ..

theorem same_checkAccessor (head : MethodHead) (method : NodeId) :
    Same (checkAccessor head method) (checkAccessor head method) := by
  refine .next (same_node? method) fun node => ?_
  extract_lets count
  split
  · exact .ite (.pure rfl) (.any (any_startOf method) fun _ _ => .failAt ..)
  · exact .ite (.pure rfl) (.any (any_startOf method) fun _ _ => .failAt ..)
  · exact .pure rfl

/-!
## Classes
-/

theorem same_staticBlock (hd : d₁.Alike d₂) (start start' : Nat) :
    Same (d₁.staticBlock start) (d₂.staticBlock start') := by
  refine .any (any_expectMark _) fun _ _ => ?_
  refine .next (.inFunction _ _ (same_repeated (same_blockTurn hd) ..)) fun statements => ?_
  exact .any (any_expectMark _) fun _ _ => same_add ..

theorem same_classField (hd : d₁.Alike d₂) (start start' : Nat) (key : NodeId)
    (computed isStatic : Bool) :
    Same (d₁.classField start key computed isStatic)
      (d₂.classField start' key computed isStatic) := by
  refine .next (same_eatMark (by decide)) fun found => ?_
  extract_lets put put'
  have hput : ∀ value stop stop', Same (put (value, stop)) (put' (value, stop')) :=
    fun value stop stop' => .next same_semicolon fun _ => same_add ..
  refine .ite ?_ ?_
  · refine .next (.inFunction _ _ (.allowingIn hd.assignment)) fun value => ?_
    exact .any (any_endOf value) fun stop stop' => .given (hput (some value) stop stop')
  · exact .any (any_endOf key) fun stop stop' => .given (hput none stop stop')

theorem same_isConstructorKey (key : NodeId) :
    Same (isConstructorKey key) (isConstructorKey key) := by
  refine .next (same_node? key) fun node => ?_
  split
  · exact .pure rfl
  · exact .pure rfl
  · exact .pure rfl

theorem same_classMember (hd : d₁.Alike d₂) (hasConstructor : Bool) :
    Same (d₁.classMember hasConstructor) (d₂.classMember hasConstructor) := by
  refine .any any_offset fun start start' => .token fun t₁ t₂ ht => .scanner fun c₁ c₂ hc => ?_
  rw [ht.isContextual, hc.staticModifies]
  extract_lets isStatic
  refine .optionally same_advance fun _ => .next (same_isAtMark (by decide)) fun isBlock => ?_
  refine .ite (.next (same_staticBlock hd ..) fun i => .pure rfl) ?_
  refine .next same_methodHead fun head => ?_
  refine .next (same_propertyName hd true) fun (key, computed) => ?_
  refine .next (same_isConstructorKey key) fun isConstructorName => ?_
  refine .next (same_isAtMark (by decide)) fun isMethod => .ite (.ite (.failAt ..) ?_) ?_
  · exact .next (same_classField hd ..) fun field => .pure rfl
  · refine .ite (.failAt ..) (.ite (.failAt ..) ?_)
    refine .next (same_methodFunction hd head) fun value => ?_
    refine .next (same_checkAccessor head value) fun _ => .any (any_endOf value) fun _ _ => ?_
    exact .next (same_add ..) fun member => .pure rfl

theorem same_classMembers (hd : d₁.Alike d₂) (fuel₁ fuel₂ : Nat) (hasConstructor : Bool)
    (reversed : List NodeId) :
    Same (d₁.classMembers fuel₁ hasConstructor reversed)
      (d₂.classMembers fuel₂ hasConstructor reversed) := by
  induction fuel₁ generalizing fuel₂ hasConstructor reversed with
  | zero => exact .fail _
  | succ fuel₁ ih =>
      have hmore : ∀ fuel₂, Same (d₁.classMembers (fuel₁ + 1) hasConstructor reversed)
          (d₂.classMembers (fuel₂ + 1) hasConstructor reversed) := by
        intro fuel₂
        have hmember := @Parallel.next _ _ _ _ _ _
          (fun r => d₁.classMembers fuel₁ (hasConstructor || r.2) (r.1 :: reversed))
          (fun r => d₂.classMembers fuel₂ (hasConstructor || r.2) (r.1 :: reversed))
          (same_classMember hd hasConstructor) fun r => ih fuel₂ (hasConstructor || r.2)
            (r.1 :: reversed)
        refine .kind (fun kind => ?_) hmember.atEnd
        split
        · exact .pure rfl
        · exact .next same_advance fun _ => ih fuel₂ hasConstructor reversed
        · exact .fail _
        · exact hmember
      cases fuel₂ with
      | zero => exact (hmore 0).giveUp
      | succ fuel₂ => exact hmore fuel₂

theorem same_classRest (hd : d₁.Alike d₂) (form : ClassForm) (name : Slot) (start start' : Nat) :
    Same (d₁.classRest form name start) (d₂.classRest form name start') := by
  refine .next (same_eat (by decide)) fun found => ?_
  extract_lets close close'
  have hclose : ∀ heritage, Same (close heritage) (close' heritage) := by
    intro heritage
    refine .any (any_expectMark _) fun _ _ => ?_
    refine .next (same_classMembers hd ..) fun members => ?_
    exact .any (any_expectMark _) fun _ _ => same_add ..
  refine .ite ?_ (.given (hclose none))
  exact .next (hd.parse .leftHandSide) fun heritage => .given (hclose (some heritage))

theorem same_classDeclaration (hd : d₁.Alike d₂) :
    Same d₁.classDeclaration d₂.classDeclaration := by
  refine .any any_offset fun start start' => .any (any_expect _) fun _ _ => ?_
  exact .next same_identifier fun name => same_classRest hd ..

theorem same_classExpression (hd : d₁.Alike d₂) : Same d₁.classExpression d₂.classExpression := by
  refine .any any_offset fun start start' => .any (any_expect _) fun _ _ => ?_
  refine .next same_isAtIdentifier fun found => .ite ?_ (same_classRest hd ..)
  exact .next same_identifier fun name => same_classRest hd ..

end Descent
end Untangle
