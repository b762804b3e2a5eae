import Untangle.Grammar.Class
import Untangle.Proofs.Grammar.Conversion

/-!
# Functions and classes build trees
-/

namespace Untangle
namespace Descent

open Forest Parse Role

variable {d : Descent}

/-!
## Blocks
-/

theorem buildsItem_block (hd : d.BuildsTrees) : BuildsItem d.blockTurn := by
  refine .quiet quiet_kind fun k => ?_
  split
  · exact .pure rfl
  · exact .fail _
  · exact .node (hd .statement) fun i => .pure rfl

theorem buildsNode_block (hd : d.BuildsTrees) : BuildsNode [] .plain d.block := by
  refine .quiet quiet_offset fun start => ?_
  refine .quiet (quiet_expectMark _) fun _ => ?_
  refine .list (buildsList_repeated (buildsItem_block hd) _) fun statements => ?_
  refine .quiet (quiet_expectMark _) fun stop => ?_
  exact .addItems statements rfl rfl

/-!
## Parameters and bodies
-/

theorem buildsTurn_parameter (hd : d.BuildsTrees) : BuildsTurn .parameter d.parameterTurn := by
  refine .quiet quiet_kind fun k => ?_
  split
  · exact .pure rfl
  · refine .node (buildsNode_restElement hd (.parameter true) fun _ => rfl) fun rest => ?_
    exact .quiet (quiet_isAtMark _) fun found => .ite (.fail _) (.pure rfl)
  · exact .node (.fits (buildsNode_bindingElement hd) .element_parameter) fun i =>
      builds_beforeComma .parameter_last i

theorem buildsSlots_parameters (hd : d.BuildsTrees) : BuildsSlots .parameter d.parameters := by
  refine .quiet (quiet_expectMark _) fun _ => ?_
  refine .entries (buildsEntries_repeated .parameter_last (buildsTurn_parameter hd) _)
    fun items => ?_
  refine .quiet (quiet_expectMark _) fun stop => ?_
  exact .pure ⟨items, rfl, rfl⟩

theorem buildsNode_functionBody (hd : d.BuildsTrees) : BuildsNode [] .plain d.functionBody :=
  .withReader (buildsNode_block hd)

/-- The root that is the name of a function or class, if it has one. -/
def heldName (name : Slot) : List Held :=
  name.toList.map (·, .name)

/-- Parameters followed by a body. -/
def FunctionParts (parts : List Slot × NodeId) (roots : List Held) : Prop :=
  ∃ parameters : List NodeId, parts.1 = parameters.map some ∧
    roots = heldLast .parameter parameters ++ [(parts.2, .plain)]

theorem buildsNode_function {act : Parse (List Slot × NodeId)} {form : FunctionForm} {name : Slot}
    {start : Nat} {isAsync isGenerator : Bool} (hparts : Builds [] act FunctionParts) :
    BuildsNode (heldName name) .plain (do
      let (parameters, body) ← act
      add (.function form name parameters (some body) isAsync isGenerator) start
        (← endOf body)) := by
  refine .next hparts fun (slots, body) roots hroots => ?_
  rcases hroots with ⟨parameters, hslots, rfl⟩
  obtain rfl : slots = parameters.map some := hslots
  refine .quiet (quiet_endOf _) fun stop => .add ?_ (fullEntries_map rfl)
  have hparts : gather (parameters.map some ++ [some body])
      (lastly .parameter (parameters.map some) ++ [.plain]) =
        some (heldLast .parameter parameters ++ [(body, .plain)]) :=
    gather_append (gather_heldLast parameters) rfl
  cases name with
  | none => exact hparts
  | some i => exact congrArg (Option.map ((i, .name) :: ·)) hparts

theorem buildsNode_functionRest (hd : d.BuildsTrees) (form : FunctionForm) (name : Slot)
    (start : Nat) (isAsync isGenerator : Bool) :
    BuildsNode (heldName name) .plain (d.functionRest form name start isAsync isGenerator) := by
  refine buildsNode_function (.withReader ?_)
  refine .next (buildsSlots_parameters hd) fun slots roots hslots => ?_
  rcases hslots with ⟨parameters, rfl, rfl⟩
  refine .node (buildsNode_functionBody hd) fun body => ?_
  exact .pure ⟨parameters, rfl, rfl⟩

theorem buildsNode_functionDeclaration (hd : d.BuildsTrees) (isAsync : Bool) :
    BuildsNode [] .plain (d.functionDeclaration isAsync) := by
  refine .quiet quiet_offset fun start => ?_
  refine .optionally quiet_advance fun _ => ?_
  refine .quiet (quiet_expect _) fun _ => ?_
  refine .quiet (quiet_eatMark _) fun isGenerator => ?_
  refine .node (.fits buildsNode_identifier .leaf_name) fun name => ?_
  exact buildsNode_functionRest hd .declaration (some name) start isAsync isGenerator

theorem buildsNode_functionExpression (hd : d.BuildsTrees) (isAsync : Bool) :
    BuildsNode [] .plain (d.functionExpression isAsync) := by
  refine .quiet quiet_offset fun start => ?_
  refine .optionally quiet_advance fun _ => ?_
  refine .quiet (quiet_expect _) fun _ => ?_
  refine .quiet (quiet_eatMark _) fun isGenerator => ?_
  have hname : Builds [] (inFunction isAsync isGenerator do
      if ← isAtIdentifier then return some (← identifier) else return none)
        fun name roots => roots = heldName name := by
    refine .withReader (.quiet quiet_isAtIdentifier fun found => .ite ?_ (.pure rfl))
    exact .node (.fits buildsNode_identifier .leaf_name) fun name => .pure rfl
  exact .next hname fun name _ hroots => hroots ▸ buildsNode_functionRest hd ..

/-!
## Methods
-/

theorem quiet_methodHead : Quiet methodHead := by
  refine .bind quiet_token fun t => .bind quiet_scanner fun s => ?_
  refine .optionally quiet_advance fun _ => ?_
  refine .bind (quiet_eatMark _) fun isGenerator => ?_
  refine .bind quiet_token fun word => .bind quiet_scanner fun s => ?_
  exact .ite (.bind quiet_advance fun _ => .pure _) (.pure _)

theorem buildsNode_methodFunction (hd : d.BuildsTrees) (head : MethodHead) :
    BuildsNode [] .plain (d.methodFunction head) :=
  .quiet quiet_offset fun start =>
    buildsNode_functionRest hd .expression none start head.isAsync head.isGenerator

theorem still_checkAccessor (head : MethodHead) (method : NodeId) :
    Still (checkAccessor head method) := by
  refine .bind (still_node? _) fun node => ?_
  extract_lets count
  split
  · exact .ite (.pure ()) (.bind (still_startOf _) fun _ => .failAt _ _)
  · exact .ite (.pure ()) (.bind (still_startOf _) fun _ => .failAt _ _)
  · exact .pure ()

theorem quiet_checkAccessor (head : MethodHead) (method : NodeId) :
    Quiet (checkAccessor head method) :=
  (still_checkAccessor head method).quiet

/-!
## Members
-/

theorem buildsNode_staticBlock (hd : d.BuildsTrees) (start : Nat) :
    BuildsNode [] .plain (d.staticBlock start) := by
  refine .quiet (quiet_expectMark _) fun _ => ?_
  refine .list (.withReader (buildsList_repeated (buildsItem_block hd) _)) fun statements => ?_
  refine .quiet (quiet_expectMark _) fun stop => ?_
  exact .addItems statements rfl rfl

theorem buildsNode_classField (hd : d.BuildsTrees) (start : Nat) (key : NodeId)
    (computed isStatic : Bool) :
    BuildsNode [(key, .ofName computed (some key))] .plain
      (d.classField start key computed isStatic) := by
  refine .quiet (quiet_eatMark _) fun found => ?_
  extract_lets put
  have hput : ∀ value stop,
      BuildsNode ((key, .ofName computed (some key)) :: heldSlot value) .plain
        (put (value, stop)) := by
    intro value stop
    refine .quiet quiet_semicolon fun _ => .add ?_ (fullEntries_none rfl)
    cases value <;> rfl
  refine .ite ?_ ?_
  · refine .node (.withReader (.withReader (hd .assignment))) fun value => ?_
    exact .quiet (quiet_endOf _) fun stop => .given (hput (some value) stop)
  · exact .quiet (quiet_endOf _) fun stop => .given (hput none stop)

theorem still_isConstructorKey (key : NodeId) : Still (isConstructorKey key) := by
  refine .bind (still_node? _) fun node => ?_
  split
  · exact .pure _
  · exact .pure _
  · exact .pure _

theorem quiet_isConstructorKey (key : NodeId) : Quiet (isConstructorKey key) :=
  (still_isConstructorKey key).quiet

theorem builds_classMember (hd : d.BuildsTrees) (hasConstructor : Bool) :
    Builds [] (d.classMember hasConstructor) fun member roots => roots = [(member.1, .plain)] := by
  refine .quiet quiet_offset fun start => ?_
  refine .quiet quiet_token fun t => ?_
  refine .quiet quiet_scanner fun s => ?_
  refine .optionally quiet_advance fun _ => ?_
  refine .quiet (quiet_isAtMark _) fun atBrace => .ite ?_ ?_
  · exact .node (buildsNode_staticBlock hd start) fun block => .pure rfl
  · refine .quiet quiet_methodHead fun head => ?_
    refine .next (builds_propertyName hd true) fun (key, computed) roots hroots => ?_
    obtain rfl : roots = [(key, .ofName computed (some key))] := hroots
    refine .quiet (quiet_isConstructorKey _) fun isConstructorName => ?_
    refine .quiet (quiet_isAtMark _) fun atParen => .ite (.ite (.failAt _ _) ?_) ?_
    · exact .whole .plain (buildsNode_classField hd start key computed _) fun field => .pure rfl
    · refine .ite (.failAt _ _) (.ite (.failAt _ _) ?_)
      refine .node (buildsNode_methodFunction hd head) fun value => ?_
      refine .quiet (quiet_checkAccessor _ _) fun _ => ?_
      refine .quiet (quiet_endOf _) fun stop => ?_
      exact .whole .plain (.addFilled rfl rfl) fun member => .pure rfl

theorem buildsList_classMembers (hd : d.BuildsTrees) (fuel : Nat) (hasConstructor : Bool)
    (reversed : List NodeId) :
    BuildsList (plainly reversed.reverse) (d.classMembers fuel hasConstructor reversed) := by
  induction fuel generalizing hasConstructor reversed with
  | zero => exact .fail _
  | succ fuel ih =>
      refine .quiet quiet_kind fun k => ?_
      split
      · exact .pure rfl
      · exact .quiet quiet_advance fun _ => ih hasConstructor reversed
      · exact .fail _
      · refine .next (builds_classMember hd _) fun (member, isConstructor) roots hroots => ?_
        obtain rfl : roots = [(member, .plain)] := hroots
        have hmore := ih (hasConstructor || isConstructor) (member :: reversed)
        rwa [plainly_reverse_cons] at hmore

/-!
## Classes
-/

theorem buildsNode_classRest (hd : d.BuildsTrees) (form : ClassForm) (name : Slot) (start : Nat) :
    BuildsNode (heldName name) .plain (d.classRest form name start) := by
  refine .quiet (quiet_eat _) fun found => ?_
  extract_lets close
  have hclose : ∀ heritage,
      BuildsNode (heldName name ++ heldSlot heritage) .plain (close heritage) := by
    intro heritage
    refine .quiet (quiet_expectMark _) fun _ => ?_
    refine .list (buildsList_classMembers hd _ _ []) fun members => ?_
    refine .quiet (quiet_expectMark _) fun stop => .add ?_ (fullEntries_map rfl)
    have hrest : gather (heritage :: members.map some)
        ((heritage :: members.map some).map fun _ => .plain) =
          some (heldSlot heritage ++ plainly members) := by
      have hmembers : gather (members.map some) ((members.map some).map fun _ => .plain) =
          some (plainly members) := gather_const members
      cases heritage with
      | none => exact hmembers
      | some i => exact congrArg (Option.map ((i, .plain) :: ·)) hmembers
    cases name with
    | none => exact hrest
    | some i => exact congrArg (Option.map ((i, .name) :: ·)) hrest
  refine .ite ?_ ?_
  · exact .node (hd .leftHandSide) fun heritage => .given (hclose (some heritage))
  · exact .given (by simpa [heldSlot, plainly] using hclose none)

theorem buildsNode_classDeclaration (hd : d.BuildsTrees) :
    BuildsNode [] .plain d.classDeclaration := by
  refine .quiet quiet_offset fun start => ?_
  refine .quiet (quiet_expect _) fun _ => ?_
  refine .node (.fits buildsNode_identifier .leaf_name) fun name => ?_
  exact buildsNode_classRest hd .declaration (some name) start

theorem buildsNode_classExpression (hd : d.BuildsTrees) :
    BuildsNode [] .plain d.classExpression := by
  refine .quiet quiet_offset fun start => ?_
  refine .quiet (quiet_expect _) fun _ => ?_
  refine .quiet quiet_isAtIdentifier fun found => .ite ?_ ?_
  · exact .node (.fits buildsNode_identifier .leaf_name) fun name =>
      .given (buildsNode_classRest hd .expression (some name) start)
  · exact .given (buildsNode_classRest hd .expression none start)

end Descent
end Untangle
