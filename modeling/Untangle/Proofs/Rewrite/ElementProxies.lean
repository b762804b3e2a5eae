import Mathlib.Data.List.Forall2
import Mathlib.Data.Option.Basic
import Untangle.Evaluation.Operator
import Untangle.Proofs.Tree.WellFormed
import Untangle.Rewrite.ProxyFunctions
import Untangle.Rewrite.Shape

/-!
# Packed arrays and element proxies

What is done with an access is told by the node that it stands in. An array stays as it was
declared if every use of its name is the object of an access whose value is used. The test for
packed arrays sees writes through assignments, updates, `delete` and loops; it does not see
writes through patterns, and methods that are called on the array.

A binding stands for an element proxy if it is declared once, is never written, and is declared
with a function whose body is the return of one element. Whether the function is asynchronous or
a generator is not asked. A call selects an element if it passes a number for every parameter
and the index has a value for these numbers.
-/

namespace Untangle

/-!
## Uses
-/

/-- What is done with the property that an expression refers to. -/
inductive PlaceUse
  | value
  | assigned
  | updated
  | deleted
  | loopTarget
  /-- Assigned by a pattern: an element of it, the target of a default, or the rest. -/
  | destructured
  /-- Called with the object of the access as `this`. -/
  | called
  deriving Repr, DecidableEq

/-- The uses that the test for packed arrays rules out. -/
def PlaceUse.isRuledOut : PlaceUse → Bool
  | assigned | updated | deleted | loopTarget => true
  | value | destructured | called => false

namespace Forest

def isObjectPattern (f : Forest) (s : Slot) : Bool :=
  f.satisfies s fun n =>
    match n with
    | .list .objectPattern _ => true
    | _ => false

def useOf (f : Forest) (s : Slot) : PlaceUse :=
  match f.node? (f.parent s) with
  | some (.binary .assignment target _ _) => if target = s then .assigned else .value
  | some (.unary _ operator _) =>
      if operator.isUpdate then .updated
      else if operator = .word .delete then .deleted
      else .value
  | some (.iteration _ target _ _ _) => if target = s then .loopTarget else .value
  | some (.list .arrayPattern _) => .destructured
  | some (.property _ _ target _) =>
      if target = s ∧ f.isObjectPattern (f.parent (f.parent s)) then .destructured else .value
  | some (.binary .default target _ _) => if target = s then .destructured else .value
  | some (.operand .rest _) => .destructured
  | some (.call .call callee _ _ _) => if callee = s then .called else .value
  | some (.taggedTemplate tag _) => if tag = s then .called else .value
  | _ => .value

/-- The node is the object of an element access. -/
def IsIndexed (f : Forest) (s : Slot) : Prop :=
  ∃ index isOptional inChain,
    f.node? (f.parent s) = some (.access .element s index isOptional inChain)

/-- The node is the object of an element access that is only read. -/
def OnlyRead (f : Forest) (s : Slot) : Prop :=
  f.IsIndexed s ∧ f.useOf (f.parent s) = .value

variable {f : Forest} {s access : Slot}

/-!
## Reads of elements
-/

theorem isRuledOut_useOf :
    (f.useOf s).isRuledOut = f.satisfies (f.parent s) (writesTo s) := by
  rw [useOf, satisfies]
  cases f.node? (f.parent s) with
  | none => rfl
  | some user =>
      cases user with
      | binary form target operator right =>
          cases form <;> by_cases h : target = s <;> simp [writesTo, PlaceUse.isRuledOut, h]
      | unary form operator argument =>
          cases h : operator.isUpdate with
          | true => simp [writesTo, PlaceUse.isRuledOut, h]
          | false =>
              by_cases h' : operator = .word .delete <;>
                simp_all [writesTo, PlaceUse.isRuledOut]
      | iteration form target subject statement isAwait =>
          by_cases h : target = s <;> simp [writesTo, PlaceUse.isRuledOut, h]
      | property kind key target computed =>
          by_cases h : target = s ∧ f.isObjectPattern (f.parent (f.parent s)) = true <;>
            simp [writesTo, PlaceUse.isRuledOut, h]
      | call form callee args isOptional inChain =>
          cases form <;> by_cases h : callee = s <;> simp [writesTo, PlaceUse.isRuledOut, h]
      | taggedTemplate tag pieces =>
          by_cases h : tag = s <;> simp [writesTo, PlaceUse.isRuledOut, h]
      | list form elements => cases form <;> rfl
      | operand form expression => cases form <;> rfl
      | _ => rfl

theorem elementRead?_eq_some_iff :
    f.elementRead? s = some access ↔
      access = f.parent s ∧ f.IsIndexed s ∧ (f.useOf access).isRuledOut = false := by
  rw [isRuledOut_useOf]
  unfold elementRead? IsIndexed
  dsimp only
  constructor
  · intro read
    split at read
    case h_1 object index isOptional inChain found =>
      split at read
      case isTrue => cases read
      case isFalse allowed =>
        cases read
        simp only [Bool.or_eq_true, bne_iff_ne, not_or, ne_eq, Decidable.not_not,
          Bool.not_eq_true] at allowed
        obtain ⟨rfl, unwritten⟩ := allowed
        exact ⟨rfl, ⟨index, isOptional, inChain, found⟩, unwritten⟩
    case h_2 => cases read
  · rintro ⟨rfl, ⟨index, isOptional, inChain, found⟩, unwritten⟩
    simp [found, unwritten]

theorem elementRead?_isSome_iff :
    (f.elementRead? s).isSome ↔
      f.IsIndexed s ∧ (f.useOf (f.parent s)).isRuledOut = false := by
  simp [Option.isSome_iff_exists, elementRead?_eq_some_iff]

end Forest

theorem PlaceUse.eq_value_iff (u : PlaceUse) :
    u = .value ↔ u.isRuledOut = false ∧ u ≠ .destructured ∧ u ≠ .called := by
  cases u <;> decide

/-!
## Packed arrays
-/

namespace Binding

/-- The declaration of a packed array, apart from its uses. -/
structure DeclaresPacked (binding : Binding) (f : Forest) (accept : Node Slot → Bool)
    (elements : List Slot) : Prop where
  stable : binding.isStable = true
  ofVariable : binding.kind.isVariable = true
  declared : f.declaredElements? binding.declaration = some elements
  accepted : ∀ e ∈ elements, f.satisfies e accept = true

theorem reads_all_iff {binding : Binding} {f : Forest} :
    binding.references.all (fun r =>
        r.kind == .read && (f.elementRead? (some r.node)).isSome) = true ↔
      ∀ r ∈ binding.references, r.kind = .read ∧ f.IsIndexed (some r.node) ∧
        (f.useOf (f.parent (some r.node))).isRuledOut = false := by
  simp only [Array.all_eq_true_iff_forall_mem, Bool.and_eq_true, beq_iff_eq,
    Forest.elementRead?_isSome_iff]

theorem packedElements?_eq_some_iff {binding : Binding} {f : Forest}
    {accept : Node Slot → Bool} {elements : List Slot} :
    binding.packedElements? f accept = some elements ↔
      binding.DeclaresPacked f accept elements ∧
        ∀ r ∈ binding.references, r.kind = .read ∧ f.IsIndexed (some r.node) ∧
          (f.useOf (f.parent (some r.node))).isRuledOut = false := by
  rw [← reads_all_iff]
  unfold packedElements?
  dsimp only
  constructor
  · intro packed
    split at packed
    case isFalse => cases packed
    case isTrue shape =>
      split at packed
      case h_2 => cases packed
      case h_1 found declared =>
        split at packed
        case isFalse => cases packed
        case isTrue uses =>
          cases packed
          rw [Bool.and_eq_true] at shape uses
          exact ⟨⟨shape.1, shape.2, declared, List.all_eq_true.mp uses.1⟩, uses.2⟩
  · rintro ⟨⟨stable, ofVariable, declared, accepted⟩, reads⟩
    have shape : (binding.isStable && binding.kind.isVariable) = true := by
      rw [stable, ofVariable]; rfl
    have all : elements.all (f.satisfies · accept) = true := List.all_eq_true.mpr accepted
    rw [if_pos shape, declared]
    simp only [all, reads, Bool.and_self, if_true]

/-- An array is packed and none of its elements is assigned by a pattern or called, exactly if it
is declared once with acceptable elements and every use of it is an element that is only read. -/
theorem packedElements?_onlyRead_iff (binding : Binding) (f : Forest)
    (accept : Node Slot → Bool) (elements : List Slot) :
    (binding.packedElements? f accept = some elements ∧
        ∀ r ∈ binding.references, f.useOf (f.parent (some r.node)) ≠ .destructured ∧
          f.useOf (f.parent (some r.node)) ≠ .called) ↔
      binding.DeclaresPacked f accept elements ∧
        ∀ r ∈ binding.references, r.kind = .read ∧ f.OnlyRead (some r.node) := by
  simp only [packedElements?_eq_some_iff, Forest.OnlyRead, PlaceUse.eq_value_iff]
  constructor
  · rintro ⟨⟨declares, reads⟩, kept⟩
    exact ⟨declares, fun r use =>
      ⟨(reads r use).1, (reads r use).2.1, (reads r use).2.2, kept r use⟩⟩
  · rintro ⟨declares, reads⟩
    exact ⟨⟨declares, fun r use => ⟨(reads r use).1, (reads r use).2.1, (reads r use).2.2.1⟩⟩,
      fun r use => (reads r use).2.2.2⟩

end Binding
end Untangle

namespace Untangle

open Forest

variable {f : Forest} {b : Bindings} {s code : Slot} {p : ElementProxy} {binding : Binding}
  {parameters : List Slot}

theorem mapM_eq_some_iff {α β : Type} {act : α → Option β} {items : List α} {answers : List β} :
    items.mapM act = some answers ↔ List.Forall₂ (fun a c => act a = some c) items answers := by
  induction items generalizing answers with
  | nil => simp [eq_comm]
  | cons a items ih =>
      simp only [List.mapM_cons, Option.bind_eq_bind, Option.bind_eq_some_iff,
        List.forall₂_cons_left_iff, ih]
      constructor
      · rintro ⟨c, hc, rest, hrest, ⟨⟩⟩
        exact ⟨c, rest, hc, hrest, rfl⟩
      · rintro ⟨c, rest, hc, hrest, rfl⟩
        exact ⟨c, hc, rest, hrest, rfl⟩

/-!
## The function
-/

/-- The function that a binding is declared with: a declaration, or the function expression that a
variable is initialized with. -/
inductive Binding.DeclaredAs (binding : Binding) (f : Forest) :
    (parameters : List Slot) → (code : Slot) → (isAsync isGenerator : Bool) → Prop
  | ofFunction {ident parameters code isAsync isGenerator} (kind : binding.kind = .function)
      (found : f.node? (some binding.declaration) =
        some (.function .declaration ident parameters code isAsync isGenerator)) :
      binding.DeclaredAs f parameters code isAsync isGenerator
  | ofVariable {target initializer ident parameters code isAsync isGenerator}
      (kind : binding.kind.isVariable = true)
      (declarator : f.node? (some binding.declaration) = some (.declarator target initializer))
      (found : f.node? initializer =
        some (.function .expression ident parameters code isAsync isGenerator)) :
      binding.DeclaredAs f parameters code isAsync isGenerator

namespace ElementProxy

/-- The function is `(parameters) { return object[index]; }`. -/
structure Describes (p : ElementProxy) (f : Forest) (parameters : List Slot) (code : Slot) :
    Prop where
  names : List.Forall₂ (fun s name => f.identifierText? s = some name) parameters p.parameters
  body : ∃ statement access isOptional inChain,
    f.node? code = some (.body .block [statement]) ∧
      f.node? statement = some (.operand .returnStatement access) ∧
      f.node? access = some (.access .element p.object p.index isOptional inChain)
  object : ∃ name, f.identifierText? p.object = some name

/-- The binding always stands for the function of the proxy. -/
structure Stands (p : ElementProxy) (f : Forest) (binding : Binding)
    (isAsync isGenerator : Bool) : Prop where
  stable : binding.isStable = true
  constant : binding.hasWrites = false
  function : ∃ parameters code, binding.DeclaredAs f parameters code isAsync isGenerator ∧
    p.Describes f parameters code

theorem returnedExpression?_eq_some_iff {e : Slot} :
    f.returnedExpression? code = some e ↔ e ≠ none ∧ ∃ statement,
      f.node? code = some (.body .block [statement]) ∧
        f.node? statement = some (.operand .returnStatement e) := by
  unfold returnedExpression? onlyStatement?
  constructor
  · intro h
    split at h
    case h_1 e' honly =>
      cases h
      split at honly
      case h_1 statement hcode => exact ⟨nofun, statement, hcode, honly⟩
      case h_2 => cases honly
    case h_2 => cases h
  · rintro ⟨hsome, statement, hcode, hreturn⟩
    obtain ⟨e', rfl⟩ := Option.ne_none_iff_exists'.mp hsome
    simp [hcode, hreturn]

theorem ofFunction?_eq_some_iff :
    ofFunction? f parameters code = some p ↔ p.Describes f parameters code := by
  unfold ofFunction?
  simp only [Option.bind_eq_bind, Option.bind_eq_some_iff, returnedExpression?_eq_some_iff]
  constructor
  · rintro ⟨e, ⟨_, statement, hcode, hreturn⟩, h⟩
    split at h
    case h_1 object index isOptional inChain hn =>
      obtain ⟨name, hobject, h⟩ := Option.bind_eq_some_iff.mp h
      obtain ⟨names, hnames, ⟨⟩⟩ := Option.bind_eq_some_iff.mp h
      exact ⟨mapM_eq_some_iff.mp hnames,
        ⟨statement, e, isOptional, inChain, hcode, hreturn, hn⟩, name, hobject⟩
    case h_2 => cases h
  · rintro ⟨hnames, ⟨statement, e, isOptional, inChain, hcode, hreturn, hn⟩, name, hobject⟩
    refine ⟨e, ⟨?_, statement, hcode, hreturn⟩, ?_⟩
    · rintro rfl
      cases hn
    · simp [hn, hobject, mapM_eq_some_iff.mpr hnames]

theorem ofBinding?_eq_some_iff :
    ofBinding? f binding = some p ↔
      ∃ isAsync isGenerator, p.Stands f binding isAsync isGenerator := by
  unfold ofBinding?
  constructor
  · intro h
    split at h
    case isTrue => cases h
    case isFalse hsteady =>
      simp only [Bool.or_eq_true, Bool.not_eq_true', not_or, Bool.not_eq_false,
        Bool.not_eq_true] at hsteady
      split at h
      case h_1 ident parameters code isAsync isGenerator hkind hn =>
        exact ⟨isAsync, isGenerator, hsteady.1, hsteady.2, parameters, code,
          .ofFunction hkind hn, ofFunction?_eq_some_iff.mp h⟩
      case h_2 target initializer _ hn =>
        split at h
        case h_1 ident parameters code isAsync isGenerator hkind hinit =>
          exact ⟨isAsync, isGenerator, hsteady.1, hsteady.2, parameters, code,
            .ofVariable hkind hn hinit, ofFunction?_eq_some_iff.mp h⟩
        case h_2 => cases h
      case h_3 => cases h
  · rintro ⟨isAsync, isGenerator, hstable, hconstant, parameters, code, hdeclared, hdescribes⟩
    have hfunction := ofFunction?_eq_some_iff.mpr hdescribes
    cases hdeclared with
    | ofFunction hkind hn => simp [hstable, hconstant, hkind, hn, hfunction]
    | ofVariable hkind hn hinit =>
        simp [hstable, hconstant, hkind, hn, hinit, hfunction]

/-!
## The index
-/

/-- In a call that passes the values, a name stands for the one passed for its last parameter. -/
def Passes (names : List String) (values : List Float) (name : String) (x : Float) : Prop :=
  ∃ before after, names.zip values = before ++ (name, x) :: after ∧ ∀ q ∈ after, q.1 ≠ name

theorem argument?_eq_some_iff {names : List String} {values : List Float} {name : String}
    {x : Float} : argument? names values name = some x ↔ Passes names values name x := by
  simp only [argument?, Option.map_eq_some_iff, List.find?_eq_some_iff_append, beq_iff_eq]
  constructor
  · rintro ⟨q, ⟨rfl, after, before, hsplit, hafter⟩, rfl⟩
    refine ⟨before.reverse, after.reverse, ?_, fun q' hq' => ?_⟩
    · rw [← List.reverse_reverse (names.zip values), hsplit]
      simp
    · simpa using hafter q' (List.mem_reverse.mp hq')
  · rintro ⟨before, after, hsplit, hafter⟩
    refine ⟨(name, x), ⟨rfl, after.reverse, before.reverse, ?_, fun q' hq' => ?_⟩, rfl⟩
    · rw [hsplit]
      simp
    · simpa using hafter q' (List.mem_reverse.mp hq')

/-- The number that an expression denotes when names stand for numbers. -/
inductive IndexValue (f : Forest) (stands : String → Float → Prop) : Slot → Float → Prop
  | number {s x raw} (found : f.node? s = some (.number x raw)) : IndexValue f stands s x
  | name {s text x} (found : f.node? s = some (.name .identifier text)) (value : stands text x) :
      IndexValue f stands s x
  | operator {s left right operator x y z}
      (found : f.node? s = some (.binary .binary left operator right))
      (first : IndexValue f stands left x) (second : IndexValue f stands right y)
      (applied : Value.applyBinary operator (.number x) (.number y) = some (.number z)) :
      IndexValue f stands s z

theorem applyBinary_of_applyArithmetic {operator : TokenKind} {x y z : Float}
    (h : applyArithmetic operator x y = some z) :
    Value.applyBinary operator (.number x) (.number y) = some (.number z) := by
  unfold applyArithmetic at h
  split at h
  case h_1 => cases h; rfl
  case h_2 => cases h; rfl
  case h_3 => cases h; rfl
  case h_4 =>
    split at h
    · cases h; rfl
    · cases h
  case h_5 =>
    split at h
    · cases h; rfl
    · cases h
  case h_6 => cases h

theorem indexValue_of_evaluateIndex {numberOf : String → Option Float} {depth : Nat} {x : Float}
    (h : evaluateIndex f numberOf depth s = some x) :
    IndexValue f (fun name x => numberOf name = some x) s x := by
  induction depth generalizing s x with
  | zero => cases h
  | succ depth ih =>
      unfold evaluateIndex at h
      split at h
      case h_1 value raw hn => cases h; exact .number hn
      case h_2 text hn => exact .name hn h
      case h_3 left operator right hn =>
        simp only [Option.bind_eq_bind, Option.bind_eq_some_iff] at h
        obtain ⟨y, hleft, z, hright, happlied⟩ := h
        exact .operator hn (ih hleft) (ih hright) (applyBinary_of_applyArithmetic happlied)
      case h_4 => cases h

/-!
## The element
-/

/-- The call selects the element. -/
structure Selects (p : ElementProxy) (b : Bindings) (f : Forest) (args : List Slot)
    (element : Slot) : Prop where
  count : args.length = p.parameters.length
  selected : ∃ values array elements index position,
    List.Forall₂ (fun s x => ∃ raw, f.node? s = some (.number x raw)) args values ∧
      b.resolveBinding p.object = some array ∧
      array.packedElements? f Node.isLiteral = some elements ∧
      IndexValue f (Passes p.parameters values) p.index index ∧
      arrayIndex? index elements.length = some position ∧ elements[position]? = some element

theorem numberLiteral?_eq_some_iff {x : Float} :
    numberLiteral? f s = some x ↔ ∃ raw, f.node? s = some (.number x raw) := by
  unfold numberLiteral?
  constructor
  · intro h
    split at h
    case h_1 value raw hn => cases h; exact ⟨raw, hn⟩
    case h_2 => cases h
  · rintro ⟨raw, hn⟩
    simp [hn]

theorem selects_of_selected? {args : List Slot} {element : Slot}
    (h : p.selected? b f args = some element) : p.Selects b f args element := by
  unfold selected? at h
  simp only [Option.bind_eq_bind, Option.bind_eq_some_iff, Option.guard_eq_some',
    mapM_eq_some_iff, numberLiteral?_eq_some_iff] at h
  obtain ⟨_, hcount, values, hvalues, array, harray, elements, helements, index, hindex, position,
    hposition, helement⟩ := h
  refine ⟨hcount, values, array, elements, index, position, hvalues, harray, helements, ?_,
    hposition, helement⟩
  simpa only [argument?_eq_some_iff] using indexValue_of_evaluateIndex hindex

/-- Only nodes that exist are selected. -/
theorem Selects.exists_node {args : List Slot} {element : Slot} (h : p.Selects b f args element) :
    ∃ e, element = some e ∧ e < f.size := by
  obtain ⟨values, array, elements, index, position, -, -, helements, -, -, helement⟩ := h.selected
  have haccepted := (Binding.packedElements?_eq_some_iff.mp helements).1.accepted element
    (List.mem_of_getElem? helement)
  obtain ⟨n, hn, -⟩ := (Option.any_eq_true _ _).mp haccepted
  cases element with
  | none => cases hn
  | some e => exact ⟨e, rfl, lt_size_of_node? hn⟩

end ElementProxy
end Untangle
