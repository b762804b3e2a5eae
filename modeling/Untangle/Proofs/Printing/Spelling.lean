import Untangle.Printing.Program
import Untangle.Proofs.Tree.WellFormed

/-!
# Spelled strings

A string literal prints as the source wrote it, and in canonical form if no source text is left.
Nothing else that is printed depends on the text of a string, so that a tree prints the same with
the canonical text written into it.
-/

namespace Untangle

/-!
## Nodes and forests
-/

namespace Node

variable {α : Type}

/-- A string that is given the text it prints as. -/
def spelled (quotes : Text.QuoteStyle) : Node α → Node α
  | string value raw isLegacy =>
      string value (some (raw.getD (Text.quoted quotes value))) isLegacy
  | n => n

/-- Only strings are spelled differently. -/
theorem spelled_cases (quotes : Text.QuoteStyle) (n : Node α) :
    n.spelled quotes = n ∨ ∃ value raw loneSurrogate, n = string value raw loneSurrogate := by
  cases n <;> first | exact .inl rfl | exact .inr ⟨_, _, _, rfl⟩

end Node

/-- A cell whose node is spelled. -/
def Cell.spelled (quotes : Text.QuoteStyle) (c : Cell) : Cell :=
  { c with node := c.node.spelled quotes }

namespace Forest

variable (f : Forest) (quotes : Text.QuoteStyle) (s : Slot)

/-- The forest with every string spelled. -/
def spelled : Forest :=
  ⟨f.cells.map (Cell.spelled quotes)⟩

theorem size_spelled : (f.spelled quotes).size = f.size :=
  Array.size_map

theorem cell?_spelled : (f.spelled quotes).cell? s = (f.cell? s).map (Cell.spelled quotes) := by
  cases s with
  | none => rfl
  | some i => exact Array.getElem?_map

theorem node?_spelled : (f.spelled quotes).node? s = (f.node? s).map (Node.spelled quotes) := by
  rw [node?, cell?_spelled, node?, Option.map_map, Option.map_map]
  rfl

/-- What a spelled forest has at a slot differs at most in the text of a string. -/
theorem node?_spelled_cases : (f.spelled quotes).node? s = f.node? s ∨
    ∃ value raw raw' loneSurrogate, f.node? s = some (.string value raw loneSurrogate) ∧
      (f.spelled quotes).node? s = some (.string value raw' loneSurrogate) := by
  rw [node?_spelled]
  cases f.node? s with
  | none => exact .inl rfl
  | some n =>
      rcases n.spelled_cases quotes with h | ⟨_, _, _, rfl⟩
      · exact .inl (congrArg some h)
      · exact .inr ⟨_, _, _, _, rfl, rfl⟩

/-!
## Questions about nodes

A question that has the same answer for all strings has the same answer for spelled ones.
-/

theorem satisfies_spelled {p : Node Slot → Bool}
    (hp : ∀ value raw raw' loneSurrogate,
      p (.string value raw loneSurrogate) = p (.string value raw' loneSurrogate)) :
    (f.spelled quotes).satisfies s p = f.satisfies s p := by
  rw [satisfies, node?_spelled, satisfies]
  cases f.node? s with
  | none => rfl
  | some n =>
      rcases n.spelled_cases quotes with h | ⟨value, raw, loneSurrogate, rfl⟩
      · rw [Option.map_some, h]
      · exact hp _ _ _ _

theorem identifierText?_spelled :
    (f.spelled quotes).identifierText? s = f.identifierText? s := by
  rw [identifierText?, node?_spelled, identifierText?]
  cases f.node? s with
  | none => rfl
  | some n =>
      rcases n.spelled_cases quotes with h | ⟨_, _, _, rfl⟩
      · rw [Option.map_some, h]
      · rfl

theorem leftmostFrom_spelled (fuel : Nat) :
    (f.spelled quotes).leftmostFrom fuel s = f.leftmostFrom fuel s := by
  induction fuel generalizing s with
  | zero => rfl
  | succ fuel ih =>
      rw [leftmostFrom, leftmostFrom, node?_spelled]
      cases f.node? s with
      | none => rfl
      | some n =>
          rcases n.spelled_cases quotes with h | ⟨_, _, _, rfl⟩
          · simp only [Option.map_some, h, ih]
          · rfl

theorem leftmost_spelled : (f.spelled quotes).leftmost s = f.leftmost s := by
  rw [leftmost, size_spelled, leftmostFrom_spelled, leftmost]

theorem startsWithObjectPattern_spelled :
    (f.spelled quotes).startsWithObjectPattern s = f.startsWithObjectPattern s := by
  rw [startsWithObjectPattern, leftmost_spelled]
  exact f.satisfies_spelled quotes _ fun _ _ _ _ => rfl

theorem startsWithObject_spelled :
    (f.spelled quotes).startsWithObject s = f.startsWithObject s := by
  rw [startsWithObject, leftmost_spelled]
  exact f.satisfies_spelled quotes _ fun _ _ _ _ => rfl

theorem isChainLink_spelled : (f.spelled quotes).isChainLink s = f.isChainLink s :=
  f.satisfies_spelled quotes s fun _ _ _ _ => rfl

theorem isIntegerLiteral_spelled :
    (f.spelled quotes).isIntegerLiteral s = f.isIntegerLiteral s :=
  f.satisfies_spelled quotes s fun _ _ _ _ => rfl

theorem repeatsSign_spelled (operator : TokenKind) :
    (f.spelled quotes).repeatsSign operator s = f.repeatsSign operator s := by
  apply satisfies_spelled
  intro value raw raw' loneSurrogate
  simp

theorem mixesCoalesce_spelled (operator : TokenKind) :
    (f.spelled quotes).mixesCoalesce operator s = f.mixesCoalesce operator s :=
  f.satisfies_spelled quotes s fun _ _ _ _ => rfl

theorem hasCallFrom_spelled (fuel : Nat) :
    (f.spelled quotes).hasCallFrom fuel s = f.hasCallFrom fuel s := by
  induction fuel generalizing s with
  | zero => rfl
  | succ fuel ih =>
      rw [hasCallFrom, hasCallFrom, node?_spelled]
      cases f.node? s with
      | none => rfl
      | some n =>
          rcases n.spelled_cases quotes with h | ⟨_, _, _, rfl⟩
          · simp only [Option.map_some, h, ih]
          · rfl

theorem memberChainHasCall_spelled :
    (f.spelled quotes).memberChainHasCall s = f.memberChainHasCall s := by
  rw [memberChainHasCall, size_spelled, hasCallFrom_spelled, memberChainHasCall]

theorem endsWithOpenIfFrom_spelled (fuel : Nat) :
    (f.spelled quotes).endsWithOpenIfFrom fuel s = f.endsWithOpenIfFrom fuel s := by
  induction fuel generalizing s with
  | zero => rfl
  | succ fuel ih =>
      rw [endsWithOpenIfFrom, endsWithOpenIfFrom, node?_spelled]
      cases f.node? s with
      | none => rfl
      | some n =>
          rcases n.spelled_cases quotes with h | ⟨_, _, _, rfl⟩
          · simp only [Option.map_some, h, ih]
          · rfl

theorem endsWithOpenIf_spelled : (f.spelled quotes).endsWithOpenIf s = f.endsWithOpenIf s := by
  rw [endsWithOpenIf, size_spelled, endsWithOpenIfFrom_spelled, endsWithOpenIf]

theorem isAmbiguousStart_spelled (c : Cell) :
    (f.spelled quotes).isAmbiguousStart (c.spelled quotes) = f.isAmbiguousStart c := by
  rcases c with ⟨n, start, stop, parent⟩
  rcases n.spelled_cases quotes with h | ⟨_, _, _, rfl⟩
  · simp only [Cell.spelled, h]
    unfold isAmbiguousStart
    split <;> try rfl
    congr 1
    exact f.satisfies_spelled quotes _ fun _ _ _ _ => rfl
  · rfl

end Forest

/-!
## Parts of layouts
-/

namespace Printer

variable (p : Printer) (place : Place) (s : Slot)

/-- The printer of the forest with every string spelled. -/
def spelled : Printer :=
  { p with forest := p.forest.spelled p.quotes }

theorem forest_spelled : p.spelled.forest = p.forest.spelled p.quotes :=
  rfl

theorem child_spelled : p.spelled.child = p.child :=
  rfl

theorem identifier_spelled : p.spelled.identifier s = p.identifier s := by
  rw [identifier, identifier, forest_spelled, Forest.identifierText?_spelled]

theorem block_spelled : p.spelled.block s = p.block s := by
  rcases p.forest.node?_spelled_cases p.quotes s with h | ⟨_, _, _, _, h, h'⟩
  · rw [block, forest_spelled, h]
    rfl
  · rw [block, forest_spelled, h', block, h]

theorem parametersAndBody_spelled (parameters : List Slot) :
    p.spelled.parametersAndBody parameters s = p.parametersAndBody parameters s := by
  rw [parametersAndBody, block_spelled]
  rfl

theorem methodModifiers_spelled (accessor : Option String) :
    p.spelled.methodModifiers accessor s = p.methodModifiers accessor s := by
  rcases p.forest.node?_spelled_cases p.quotes s with h | ⟨_, _, _, _, h, h'⟩
  · rw [methodModifiers, forest_spelled, h]
    rfl
  · rw [methodModifiers, forest_spelled, h', methodModifiers, h]

theorem shorthand_spelled (key : Slot) :
    p.spelled.shorthand place key s = p.shorthand place key s := by
  rcases p.forest.node?_spelled_cases p.quotes s with h | ⟨_, _, _, _, h, h'⟩
  · simp only [shorthand, forest_spelled, h, identifier_spelled, Forest.identifierText?_spelled]
    rfl
  · simp only [shorthand, forest_spelled, h, h']
    rfl

theorem methodProperty_spelled (accessor : Option String) (computed : Bool) (key : Slot) :
    p.spelled.methodProperty place accessor computed key s =
      p.methodProperty place accessor computed key s := by
  rcases p.forest.node?_spelled_cases p.quotes s with h | ⟨_, _, _, _, h, h'⟩
  · simp only [methodProperty, forest_spelled, h, methodModifiers_spelled,
      parametersAndBody_spelled]
    rfl
  · simp only [methodProperty, forest_spelled, h, h']
    rfl

theorem templatePieces_spelled (quasis : List Quasi) (expressions : List Slot) :
    p.spelled.templatePieces quasis expressions = p.templatePieces quasis expressions := by
  induction quasis generalizing expressions with
  | nil => rfl
  | cons quasi quasis ih =>
      cases expressions with
      | nil => rw [templatePieces, ih, templatePieces]
      | cons expression rest =>
          rw [templatePieces, ih, templatePieces]
          rfl

theorem chainObject_spelled (inChain : Bool) :
    p.spelled.chainObject place inChain s = p.chainObject place inChain s := by
  rw [chainObject, forest_spelled, Forest.isChainLink_spelled]
  rfl

theorem embedded_spelled : p.spelled.embedded place s = p.embedded place s := by
  rcases p.forest.node?_spelled_cases p.quotes s with h | ⟨_, _, _, _, h, h'⟩
  · rw [embedded, forest_spelled, h]
    rfl
  · rw [embedded, forest_spelled, h', embedded, h]
    rfl

theorem embeddedInBraces_spelled :
    p.spelled.embeddedInBraces place s = p.embeddedInBraces place s := by
  rcases p.forest.node?_spelled_cases p.quotes s with h | ⟨_, _, _, _, h, h'⟩
  · simp only [embeddedInBraces, forest_spelled, h, block_spelled]
    rfl
  · simp only [embeddedInBraces, forest_spelled, h, h']
    rfl

theorem declarators_spelled (kind : VariableKind) (slots : List Slot) :
    p.spelled.declarators place kind slots = p.declarators place kind slots := by
  simp only [declarators]
  congr 2
  apply List.map_congr_left
  intro s _
  rcases p.forest.node?_spelled_cases p.quotes s with h | ⟨_, _, _, _, h, h'⟩
  · rw [forest_spelled, h]
    rfl
  · rw [forest_spelled, h', h]

theorem loopTarget_spelled (minimum : Precedence) :
    p.spelled.loopTarget place minimum s = p.loopTarget place minimum s := by
  rcases p.forest.node?_spelled_cases p.quotes s with h | ⟨_, _, _, _, h, h'⟩
  · simp only [loopTarget, forest_spelled, h, declarators_spelled]
    rfl
  · simp only [loopTarget, forest_spelled, h, h']
    rfl

/-!
## Layouts of expressions
-/

theorem arrow_spelled (parameters : List Slot) (isAsync : Bool) :
    p.spelled.arrow place parameters s isAsync = p.arrow place parameters s isAsync := by
  rcases p.forest.node?_spelled_cases p.quotes s with h | ⟨_, _, _, _, h, h'⟩
  · simp only [arrow, forest_spelled, h, block_spelled, Forest.startsWithObject_spelled]
    rfl
  · simp only [arrow, forest_spelled, h, h', Forest.startsWithObject_spelled]
    rfl

theorem function_spelled (ident : Slot) (parameters : List Slot) (isAsync isGenerator : Bool) :
    p.spelled.function ident parameters s isAsync isGenerator =
      p.function ident parameters s isAsync isGenerator := by
  rw [function, identifier_spelled, parametersAndBody_spelled, function]

theorem property_spelled (kind : PropertyKind) (key value : Slot) (computed : Bool) :
    p.spelled.property place kind key value computed =
      p.property place kind key value computed := by
  cases kind with
  | init => rfl
  | shorthand =>
      rw [property, shorthand_spelled]
      rfl
  | method => exact p.methodProperty_spelled place value none computed key
  | getter => exact p.methodProperty_spelled place value (some "get") computed key
  | setter => exact p.methodProperty_spelled place value (some "set") computed key

theorem array_spelled (elements : List Slot) : p.spelled.array elements = p.array elements := by
  simp only [array, forest_spelled]
  congr 4
  funext last
  exact p.forest.satisfies_spelled p.quotes last fun _ _ _ _ => rfl

theorem list_spelled (form : ListForm) (elements : List Slot) :
    p.spelled.list place form elements = p.list place form elements := by
  cases form with
  | arrayLiteral | arrayPattern => exact p.array_spelled elements
  | objectLiteral | objectPattern => rfl
  | sequence => cases elements <;> rfl

theorem template_spelled (quasis : List Quasi) (expressions : List Slot) :
    p.spelled.template quasis expressions = p.template quasis expressions := by
  rw [template, templatePieces_spelled, template]

theorem call_spelled (args : List Slot) (isOptional inChain : Bool) :
    p.spelled.call place s args isOptional inChain = p.call place s args isOptional inChain := by
  rw [call, chainObject_spelled]
  rfl

theorem construction_spelled (args : List Slot) :
    p.spelled.construction place s args = p.construction place s args := by
  rw [construction, forest_spelled, Forest.memberChainHasCall_spelled,
    Forest.isChainLink_spelled]
  rfl

theorem propertyAccess_spelled (key : Slot) (isOptional inChain : Bool) :
    p.spelled.propertyAccess place s key isOptional inChain =
      p.propertyAccess place s key isOptional inChain := by
  rw [propertyAccess, forest_spelled, Forest.isIntegerLiteral_spelled, chainObject_spelled]
  rfl

theorem elementAccess_spelled (key : Slot) (isOptional inChain : Bool) :
    p.spelled.elementAccess place s key isOptional inChain =
      p.elementAccess place s key isOptional inChain := by
  rw [elementAccess, chainObject_spelled]
  rfl

theorem taggedTemplate_spelled (pieces : Slot) :
    p.spelled.taggedTemplate place s pieces = p.taggedTemplate place s pieces := by
  rw [taggedTemplate, forest_spelled, Forest.isChainLink_spelled]
  rfl

theorem before_spelled (operator : TokenKind) :
    p.spelled.before place operator s = p.before place operator s := by
  rw [before, forest_spelled, Forest.repeatsSign_spelled]
  rfl

theorem binary_spelled (left : Slot) (operator : TokenKind) (right : Slot) :
    p.spelled.binary place left operator right = p.binary place left operator right := by
  simp only [binary, forest_spelled, Forest.mixesCoalesce_spelled]
  rfl

/-!
## Layouts of statements
-/

theorem expressionStatement_spelled :
    p.spelled.expressionStatement place s = p.expressionStatement place s := by
  rw [expressionStatement, forest_spelled, Forest.startsWithObjectPattern_spelled]
  rfl

theorem operand_spelled (form : OperandForm) :
    p.spelled.operand place form s = p.operand place form s := by
  cases form with
  | expressionStatement => exact p.expressionStatement_spelled place s
  | returnStatement | throwStatement | spread | rest | await => rfl

theorem conditionalStatement_spelled (condition whenTrue whenFalse : Slot) :
    p.spelled.conditionalStatement place condition whenTrue whenFalse =
      p.conditionalStatement place condition whenTrue whenFalse := by
  simp only [conditionalStatement, forest_spelled, Forest.endsWithOpenIf_spelled,
    embedded_spelled, embeddedInBraces_spelled]
  rfl

theorem forLoop_spelled (initializer condition increment : Slot) :
    p.spelled.forLoop place initializer condition increment s =
      p.forLoop place initializer condition increment s := by
  rw [forLoop, loopTarget_spelled, embedded_spelled]
  rfl

theorem iteration_spelled (form : IterationForm) (target subject : Slot) (isAwait : Bool) :
    p.spelled.iteration place form target subject s isAwait =
      p.iteration place form target subject s isAwait := by
  simp only [iteration, loopTarget_spelled, embedded_spelled]
  rfl

theorem guarded_spelled (form : GuardForm) (condition : Slot) :
    p.spelled.guarded place form condition s = p.guarded place form condition s := by
  simp only [guarded, embedded_spelled]
  rfl

theorem jump_spelled (form : JumpForm) : p.spelled.jump form s = p.jump form s := by
  simp only [jump, identifier_spelled]

theorem catchClause_spelled (binding : Slot) :
    p.spelled.catchClause place binding s = p.catchClause place binding s := by
  rw [catchClause, block_spelled]
  rfl

theorem tryStatement_spelled (block finalizer : Slot) :
    p.spelled.tryStatement place block s finalizer = p.tryStatement place block s finalizer := by
  rcases p.forest.node?_spelled_cases p.quotes s with h | ⟨_, _, _, _, h, h'⟩
  · simp only [tryStatement, forest_spelled, h, block_spelled]
    rfl
  · simp only [tryStatement, forest_spelled, h, h', block_spelled]

theorem switch_spelled (clauses : List Slot) :
    p.spelled.switch place s clauses = p.switch place s clauses := by
  simp only [switch, child_spelled]
  congr 5
  funext s
  rcases p.forest.node?_spelled_cases p.quotes s with h | ⟨_, _, _, _, h, h'⟩
  · rw [forest_spelled, h]
  · rw [forest_spelled, h', h]

theorem classLike_spelled (ident : Slot) (members : List Slot) :
    p.spelled.classLike place ident s members = p.classLike place ident s members := by
  rw [classLike, identifier_spelled]
  rfl

theorem method_spelled (kind : MethodKind) (key : Slot) (computed isStatic : Bool) :
    p.spelled.method place kind key s computed isStatic =
      p.method place kind key s computed isStatic := by
  rcases p.forest.node?_spelled_cases p.quotes s with h | ⟨_, _, _, _, h, h'⟩
  · simp only [method, forest_spelled, h, methodModifiers_spelled, parametersAndBody_spelled]
    rfl
  · simp only [method, forest_spelled, h, h', methodModifiers_spelled]
    rfl

/-!
## Trees
-/

theorem plain_spelled (n : Node Slot) :
    p.spelled.plain place (n.spelled p.quotes) = p.plain place n := by
  rcases n.spelled_cases p.quotes with h | ⟨_, _, _, rfl⟩
  · rw [h]
    unfold plain
    split
    -- Where the layout asks for nothing but the layouts of children, they are the same.
    all_goals first
      | rfl
      | simp only [arrow_spelled, function_spelled, property_spelled, list_spelled,
          template_spelled, call_spelled, construction_spelled, propertyAccess_spelled,
          elementAccess_spelled, taggedTemplate_spelled, before_spelled, binary_spelled,
          operand_spelled, conditionalStatement_spelled, forLoop_spelled, iteration_spelled,
          guarded_spelled, jump_spelled, catchClause_spelled, tryStatement_spelled,
          switch_spelled, classLike_spelled, method_spelled, declarators_spelled,
          identifier_spelled, embedded_spelled]
  · rfl

theorem needsParentheses_spelled (f : Forest) (quotes : Text.QuoteStyle) (c : Cell) :
    needsParentheses (f.spelled quotes) place (c.spelled quotes) = needsParentheses f place c := by
  rw [needsParentheses, needsParentheses, Forest.isAmbiguousStart_spelled, Cell.spelled]
  rcases c.node.spelled_cases quotes with h | ⟨_, _, _, h⟩
  · rw [h]
  · rw [h]
    rfl

theorem cell_spelled (c : Cell) : p.spelled.cell place (c.spelled p.quotes) = p.cell place c := by
  rw [cell, forest_spelled, needsParentheses_spelled, Cell.spelled, plain_spelled, plain_spelled,
    cell]

end Printer

namespace Forest

variable {f g : Forest} {style : Style} {root : Slot}

theorem layout_spelled (f : Forest) (quotes : Text.QuoteStyle) (fuel : Nat) (place : Place)
    (s : Slot) :
    (f.spelled quotes).layout quotes fuel place s = f.layout quotes fuel place s := by
  induction fuel generalizing place s with
  | zero => rfl
  | succ fuel ih =>
      have hchild : (f.spelled quotes).layout quotes fuel = f.layout quotes fuel := by
        funext place s
        exact ih place s
      rw [layout, layout, cell?_spelled, hchild]
      cases f.cell? s with
      | none => rfl
      | some c => exact Printer.cell_spelled ⟨f, quotes, f.layout quotes fuel⟩ place c

/-- Trees that agree once their strings are spelled print the same. -/
theorem print_eq_of_spelled (h : f.spelled style.quotes = g.spelled style.quotes) :
    f.print style root = g.print style root := by
  have hsize : f.size = g.size := by
    rw [← f.size_spelled style.quotes, h, size_spelled]
  rw [print, ← layout_spelled, h, layout_spelled, hsize, print]

end Forest
end Untangle
