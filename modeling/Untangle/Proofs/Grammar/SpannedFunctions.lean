import Untangle.Proofs.Grammar.Rows

/-!
# Rows of patterns, functions and classes

What stands for a variable or a member is read behind any row. A literal inside is read as an
assignment, so that there is room around it for one more.
-/

namespace Untangle

open Forest Parse

/-- So many literals may be nested in the answer to a goal beyond what there is room for. An operand
may be a literal; whatever else has one inside reads it as an assignment, one level deeper. -/
def Goal.collections : Goal → Nat
  | .statement => 0
  | .assignment => 0
  | .binary _ => 1
  | .unary => 1
  | .leftHandSide => 1
  | .newExpression => 1
  | .bindingTarget => 0

namespace Descent

/-- Every goal is answered by one node that was read, whose literals there is room for. -/
def LaysTrees (d : Descent) : Prop :=
  ∀ goal more, goal.collections ≤ more → LaysNode more (d.parse goal)

variable {d : Descent} {more : Nat}

theorem LaysTrees.statement (hd : d.LaysTrees) : LaysNode more d.statement :=
  hd .statement more (Nat.zero_le more)

theorem LaysTrees.assignment (hd : d.LaysTrees) : LaysNode more d.assignment :=
  hd .assignment more (Nat.zero_le more)

theorem LaysTrees.bindingTarget (hd : d.LaysTrees) : LaysNode more d.bindingTarget :=
  hd .bindingTarget more (Nat.zero_le more)

theorem LaysTrees.operand (hd : d.LaysTrees) (goal : Goal) :
    LaysNode (more + 1) (d.parse goal) := by
  refine hd goal (more + 1) (Nat.le_trans ?_ (Nat.le_add_left 1 more))
  cases goal <;> simp [Goal.collections]

/-!
## Property names
-/

theorem laysNode_literalKey : LaysNode more literalKey := by
  intro c
  refine .token (.pass fun _ => .add [] ?_ rfl ?_)
  · split <;> rfl
  · split <;> exact Nat.le_refl _

theorem lays_propertyName (hd : d.LaysTrees) (allowPrivate : Bool) :
    Lays more [] (d.propertyName allowPrivate) fun key => [.node key.1] := by
  intro c
  refine .kind ?_
  split
  · refine .steady steady_advance fun _ _ => ?_
    refine .next (.withReader (hd.assignment _) fun _ => rfl) fun key _ => ?_
    exact .steady (steady_expectMark _) fun _ _ => .pure (.refl _)
  · exact .next (laysNode_literalKey _) fun key _ => .pure (.refl _)
  · exact .next (laysNode_literalKey _) fun key _ => .pure (.refl _)
  · exact .next (laysNode_literalKey _) fun key _ => .pure (.refl _)
  · exact .ite (.next (laysNode_privateName _) fun key _ => .pure (.refl _)) (.fail _)
  · refine .ite (.next (.asNode (laysLeaf_anyName _)) fun key _ => .pure ?_) (.fail _)
    exact .refl _

/-- The key of a property; one that is spelled like a variable has no children. -/
def keyPiece (isName : Bool) (key : NodeId) : Piece :=
  if isName then .leaf key else .node key

@[simp] theorem node?_keyPiece (isName : Bool) (key : NodeId) :
    (keyPiece isName key).node? = some key := by
  cases isName <;> rfl

theorem laysFrom_propertyName (hd : d.LaysTrees) (allowPrivate : Bool) (c : Scanner) :
    LaysFrom more more c [] (d.propertyName allowPrivate)
      fun key => [keyPiece c.token.kind.startsBindingName key.1] := by
  cases hname : c.token.kind.startsBindingName with
  | false => exact lays_propertyName hd allowPrivate c
  | true =>
      refine .kind ?_
      revert hname
      cases c.token.kind with
      | identifier =>
          exact fun _ => .ite (.next (laysLeaf_anyName _) fun key _ => .pure (.refl _)) (.fail _)
      | word w =>
          exact fun _ => .ite (.next (laysLeaf_anyName _) fun key _ => .pure (.refl _)) (.fail _)
      | _ => nofun

/-!
## Binding patterns
-/

theorem lays_defaultValue (hd : d.LaysTrees) (target : NodeId) :
    Lays more [.node target] (d.defaultValue target) fun i => [.node i] := by
  intro c
  refine .startOf fun start => ?_
  refine .next (.withReader (hd.assignment _) fun _ => rfl) fun value _ => ?_
  exact .addSince rfl .refl

theorem laysNode_bindingElement (hd : d.LaysTrees) : LaysNode more d.bindingElement := by
  intro c
  refine .next (hd.bindingTarget _) fun target _ => ?_
  refine .steady (steady_eatMark _) fun found _ => ?_
  exact .ite (lays_defaultValue hd target _) (.pure (.refl _))

theorem laysNode_restElement (hd : d.LaysTrees) : LaysNode more d.restElement := by
  intro c
  refine .offset (.steady (steady_expectMark _) fun _ _ => ?_)
  refine .next (hd.bindingTarget _) fun target _ => ?_
  exact .still (still_isAtMark _) fun found => .ite (.fail _) (.addEnding [] rfl rfl .refl)

theorem laysNode_hole : LaysNode more hole := by
  intro c
  refine .offset (.again (.whole (.add [] rfl rfl .refl) fun i _ => ?_))
  exact .steady steady_advance fun _ _ => .pure (.refl _)

theorem laysTurn_arrayBinding (hd : d.LaysTrees) : LaysTurn more d.arrayBindingTurn := by
  intro c
  refine .kind ?_
  split
  · exact .pure (.refl _)
  · exact .next (laysNode_hole _) fun i _ => .pure (.refl _)
  · refine .next (laysNode_restElement hd _) fun rest _ => ?_
    exact .still (still_isAtMark _) fun found => .ite (.pure (.refl _)) (.fail _)
  · exact .next (laysNode_bindingElement hd _) fun i _ => lays_beforeComma i _

theorem laysNode_arrayBinding (hd : d.LaysTrees) : LaysNode more d.arrayBinding := by
  intro c
  refine .offset (.steady (steady_expectMark _) fun _ _ => ?_)
  refine .next (laysList_repeated (laysTurn_arrayBinding hd) _ _) fun elements _ => ?_
  exact .expect fun _ => .add (.mark _ :: rowOf elements)
    (by simp [childrenOf, Node.slots, List.filterMap_map]) rfl .refl

theorem laysNode_objectRest : LaysNode more objectRest := by
  intro c
  refine .offset (.steady steady_advance fun _ _ => ?_)
  refine .next (laysNode_identifier _) fun target _ => .endOf fun stop => ?_
  refine .whole (.add [.node target] rfl rfl .refl) fun i _ => ?_
  exact .still (still_isAtMark _) fun found => .ite (.pure (.refl _)) (.fail _)

/-- `name` or `name = value`, read from behind the name. -/
theorem lays_shorthand (hd : d.LaysTrees) (key : NodeId) (computed : Bool) (start : Nat) :
    Lays more [.leaf key, .mark start] (do
      let value ← copyIdentifier key
      if ← eatMark .assign then
        let value ← d.defaultValue value
        let stop ← endOf value
        add (.property .shorthand (some key) (some value) computed) start stop
      else
        let stop ← endOf value
        add (.property .shorthand (some key) (some value) computed) start stop)
      fun i => [.node i] := by
  intro c
  refine .take (lays_copyIdentifier key c) fun value _ => ?_
  refine .steady (steady_eatMark _) fun found _ => .ite ?_ (.addEnding [.leaf key] rfl rfl .refl)
  refine .take (lays_defaultValue hd value _) fun value _ => ?_
  exact .addEnding [.leaf key] rfl rfl .refl

theorem laysNode_bindingProperty (hd : d.LaysTrees) : LaysNode more d.bindingProperty := by
  intro c
  refine .offset (.isAtIdentifier fun isPlain hplain => ?_)
  refine .still still_isAtAwait fun isAwait => .ite (.fail _) ?_
  refine .next (laysFrom_propertyName hd false _) fun (key, computed) _ => ?_
  refine .steady (steady_eatMark _) fun found _ => .ite ?_ ?_
  · refine .next (laysNode_bindingElement hd _) fun value _ => ?_
    exact .addEnding [keyPiece _ key] (by simp [childrenOf, Node.slots]) rfl .refl
  · split
    · rename_i hshort
      rw [hplain (Bool.and_eq_true_iff.mp hshort).1]
      exact lays_shorthand hd key computed _ _
    · exact .fail _

theorem laysTurn_objectBinding (hd : d.LaysTrees) : LaysTurn more d.objectBindingTurn := by
  intro c
  refine .kind ?_
  split
  · exact .pure (.refl _)
  · exact .next (laysNode_objectRest _) fun i _ => .pure (.refl _)
  · exact .next (laysNode_bindingProperty hd _) fun i _ => lays_beforeComma i _

theorem laysNode_objectBinding (hd : d.LaysTrees) : LaysNode more d.objectBinding := by
  intro c
  refine .offset (.steady (steady_expectMark _) fun _ _ => ?_)
  refine .next (laysList_repeated (laysTurn_objectBinding hd) _ _) fun properties _ => ?_
  exact .expect fun _ => .add (.mark _ :: rowOf properties)
    (by simp [childrenOf, Node.slots, List.filterMap_map]) rfl .refl

theorem laysNode_bindingTarget (hd : d.LaysTrees) : LaysNode more d.bindingTargetProduction := by
  intro c
  refine .kind ?_
  split
  · exact laysNode_objectBinding hd c
  · exact laysNode_arrayBinding hd c
  · exact laysNode_identifier c

/-!
## Functions
-/

theorem laysTurn_block (hd : d.LaysTrees) : LaysTurn more d.blockTurn := by
  intro c
  refine .kind ?_
  split
  · exact .pure (.refl _)
  · exact .fail _
  · exact .next (hd.statement _) fun i _ => .pure (.refl _)

theorem laysNode_block (hd : d.LaysTrees) : LaysNode more d.block := by
  intro c
  refine .offset (.steady (steady_expectMark _) fun _ _ => ?_)
  refine .next (laysList_repeated (laysTurn_block hd) _ _) fun statements _ => ?_
  exact .expect fun _ => .add (.mark _ :: rowOf statements)
    (by simp [childrenOf, Node.slots, List.filterMap_map]) rfl .refl

theorem laysTurn_parameter (hd : d.LaysTrees) : LaysTurn more d.parameterTurn := by
  intro c
  refine .kind ?_
  split
  · exact .pure (.refl _)
  · refine .next (laysNode_restElement hd _) fun rest _ => ?_
    exact .still (still_isAtMark _) fun found => .ite (.fail _) (.pure (.refl _))
  · exact .next (laysNode_bindingElement hd _) fun i _ => lays_beforeComma i _

theorem lays_parameters (hd : d.LaysTrees) :
    Lays more [] d.parameters fun slots => rowOf (slots.filterMap id) := by
  intro c
  refine .steady (steady_expectMark _) fun _ _ => ?_
  refine .next (laysList_repeated (laysTurn_parameter hd) _ _) fun items _ => ?_
  exact .steady (steady_expectMark _) fun _ _ => .pure (by simp [List.filterMap_map])

theorem lays_functionRest (hd : d.LaysTrees) (form : FunctionForm) (name : Slot) (start : Nat)
    (isAsync isGenerator : Bool) :
    Lays more (rowOf name.toList ++ [.mark start])
      (d.functionRest form name start isAsync isGenerator) fun i => [.node i] := by
  intro c
  have hparts : Lays more [] (do
      let parameters ← d.parameters
      let body ← d.functionBody
      return (parameters, body)) fun parts => .node parts.2 :: rowOf (parts.1.filterMap id) := by
    intro c
    refine .next (lays_parameters hd _) fun parameters _ => ?_
    exact .next (.withReader (laysNode_block hd _) fun _ => rfl) fun body _ => .pure (by simp)
  refine .next (.withReader (hparts _) fun _ => rfl) fun (parameters, body) _ => ?_
  refine .addEnding (rowOf (parameters.filterMap id) ++ rowOf name.toList) ?_ (by simp) .refl
  cases name <;> simp [childrenOf, Node.slots]

theorem laysNode_functionDeclaration (hd : d.LaysTrees) (isAsync : Bool) :
    LaysNode more (d.functionDeclaration isAsync) := by
  intro c
  refine .offset (.optionally steady_advance fun _ _ => ?_)
  refine .steady (steady_expect _) fun _ _ => ?_
  refine .steady (steady_eatMark _) fun isGenerator _ => ?_
  refine .next (laysNode_identifier _) fun name _ => ?_
  exact lays_functionRest hd .declaration (some name) _ isAsync isGenerator _

theorem laysNode_functionExpression (hd : d.LaysTrees) (isAsync : Bool) :
    LaysNode more (d.functionExpression isAsync) := by
  intro c
  have hname : Lays more [] (do
      if ← isAtIdentifier then return some (← identifier) else return none)
      fun name : Slot => rowOf name.toList := by
    intro c
    refine .still still_isAtIdentifier fun found => .ite ?_ (.pure (.refl _))
    exact .next (laysNode_identifier _) fun name _ => .pure (.refl _)
  refine .offset (.optionally steady_advance fun _ _ => ?_)
  refine .steady (steady_expect _) fun _ _ => ?_
  refine .steady (steady_eatMark _) fun isGenerator _ => ?_
  refine .next (.withReader (hname _) fun _ => rfl) fun name _ => ?_
  exact lays_functionRest hd .expression name _ isAsync isGenerator _

theorem steady_methodHead : Steady methodHead := by
  refine .bind (.still still_token) fun t => .bind (.still still_scanner) fun s => ?_
  refine .optionally steady_advance fun _ => ?_
  refine .bind (steady_eatMark _) fun isGenerator => ?_
  refine .bind (.still still_token) fun word => .bind (.still still_scanner) fun s => ?_
  exact .ite (.bind steady_advance fun _ => .still (.pure _)) (.still (.pure _))

theorem laysNode_methodFunction (hd : d.LaysTrees) (head : MethodHead) :
    LaysNode more (d.methodFunction head) := fun _ =>
  .offset (lays_functionRest hd .expression none _ head.isAsync head.isGenerator _)

/-!
## Classes
-/

theorem lays_staticBlock (hd : d.LaysTrees) (start : Nat) :
    Lays more [.mark start] (d.staticBlock start) fun i => [.node i] := by
  intro c
  refine .steady (steady_expectMark _) fun _ _ => ?_
  have hstatements : LaysList more (repeated d.fuel d.blockTurn) :=
    laysList_repeated (laysTurn_block hd) _
  refine .next (.withReader (hstatements _) fun _ => rfl) fun statements _ => ?_
  exact .expect fun _ => .add (.mark _ :: rowOf statements)
    (by simp [childrenOf, Node.slots, List.filterMap_map]) rfl .refl

theorem lays_classField (hd : d.LaysTrees) (start : Nat) (key : NodeId)
    (computed isStatic : Bool) :
    Lays more [.node key, .mark start] (d.classField start key computed isStatic)
      fun i => [.node i] := by
  intro c
  refine .steady (steady_eatMark _) fun found _ => ?_
  extract_lets put
  have hput : ∀ (value : Slot) stop,
      Lays more (.mark stop :: (rowOf value.toList ++ [.node key, .mark start])) (put (value, stop))
        fun i => [.node i] := by
    intro value stop c
    refine .steady steady_semicolon fun _ _ => ?_
    refine .add (rowOf value.toList ++ [.node key]) ?_ (by simp) .refl
    cases value <;> simp [childrenOf, Node.slots]
  refine .ite ?_ ?_
  · refine .next (.withReader (.withReader (hd.assignment _) fun _ => rfl) fun _ => rfl)
      fun value _ => ?_
    exact .endOf fun stop => .chosen (hput (some value) stop _)
  · exact .endOf fun stop => .chosen (hput none stop _)

theorem lays_classMember (hd : d.LaysTrees) (hasConstructor : Bool) :
    Lays more [] (d.classMember hasConstructor) fun member => [.node member.1] := by
  intro c
  refine .offset (.token (.scanner (.optionally steady_advance fun _ _ => ?_)))
  refine .still (still_isAtMark _) fun atBrace => .ite ?_ ?_
  · exact .whole (lays_staticBlock hd _ _) fun block _ => .pure (.refl _)
  · refine .steady steady_methodHead fun head _ => ?_
    refine .next (lays_propertyName hd true _) fun (key, computed) _ => ?_
    refine .still (still_isConstructorKey _) fun isConstructorName => ?_
    refine .still (still_isAtMark _) fun atParen => .ite (.ite (.failAt _ _) ?_) ?_
    · exact .whole (lays_classField hd _ key computed _ _) fun field _ => .pure (.refl _)
    · refine .ite (.failAt _ _) (.ite (.failAt _ _) ?_)
      refine .next (laysNode_methodFunction hd head _) fun value _ => ?_
      refine .still (still_checkAccessor _ _) fun _ => .endOf fun stop => ?_
      refine .whole (.add [.node value, .node key] ?_ rfl .refl) fun member _ => .pure (.refl _)
      simp [childrenOf, Node.slots]

theorem lays_classMembers (hd : d.LaysTrees) (fuel : Nat) (hasConstructor : Bool)
    (reversed : List NodeId) :
    Lays more (reversed.map .node) (d.classMembers fuel hasConstructor reversed) rowOf := by
  induction fuel generalizing hasConstructor reversed with
  | zero => exact fun _ => .fail _
  | succ fuel ih =>
      intro c
      refine .kind ?_
      split
      · exact .pure (by simp [rowOf])
      · exact .steady steady_advance fun _ _ => ih hasConstructor reversed _
      · exact .fail _
      · exact .next (lays_classMember hd _ _) fun member _ => ih _ (member.1 :: reversed) _

theorem lays_classRest (hd : d.LaysTrees) (form : ClassForm) (name : Slot) (start : Nat) :
    Lays (more + 1) (rowOf name.toList ++ [.mark start]) (d.classRest form name start)
      fun i => [.node i] := by
  intro c
  refine .steady (steady_eat _) fun found _ => ?_
  extract_lets close
  have hclose : ∀ heritage : Slot,
      Lays (more + 1) (rowOf heritage.toList ++ (rowOf name.toList ++ [.mark start]))
        (close heritage) fun i => [.node i] := by
    intro heritage c
    refine .steady (steady_expectMark _) fun _ _ => ?_
    refine .next (lays_classMembers hd _ _ [] _) fun members c => ?_
    refine .expect fun _ => .add (.mark c.token.start.offset ::
      (rowOf members ++ (rowOf heritage.toList ++ rowOf name.toList))) ?_ (by simp) .refl
    cases name <;> cases heritage <;> simp [childrenOf, Node.slots, List.filterMap_map]
  refine .ite ?_ (.chosen (hclose none _))
  exact .next (hd.operand .leftHandSide _) fun heritage _ => .chosen (hclose (some heritage) _)

theorem laysNode_classDeclaration (hd : d.LaysTrees) : LaysNode (more + 1) d.classDeclaration := by
  intro c
  refine .offset (.steady (steady_expect _) fun _ _ => ?_)
  refine .next (laysNode_identifier _) fun name _ => ?_
  exact lays_classRest hd .declaration (some name) _ _

theorem laysNode_classExpression (hd : d.LaysTrees) : LaysNode (more + 1) d.classExpression := by
  intro c
  refine .offset (.steady (steady_expect _) fun _ _ => ?_)
  refine .still still_isAtIdentifier fun found => .ite ?_ ?_
  · exact .next (laysNode_identifier _) fun name _ =>
      .chosen (lays_classRest hd .expression (some name) _ _)
  · exact .chosen (lays_classRest hd .expression none _ _)

end Descent
end Untangle
