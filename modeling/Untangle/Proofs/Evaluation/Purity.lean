import Mathlib.Logic.Basic
import Untangle.Evaluation.Evaluate

/-!
# What purity excludes

An expression evaluates some of its parts: a function evaluates none of them before it is called,
and an object literal evaluates the values and the computed keys of its properties. Purity is a
property of these parts, one by one. None of them may call, write or raise anything by itself,
be a name without a value, or stand too deep.

Conversions are no such part. A template converts literals only, but the operands of an operator
are asked for nothing beyond their own purity, so an operator may convert a variable or an object.
-/

namespace Untangle

/-!
## Evaluated parts
-/

/-- The parts of an object literal that one of its elements contributes. -/
def Forest.propertyParts (f : Forest) (s : Slot) : List Slot :=
  match f.node? s with
  | some (.property _ key value computed) => if computed then [key, value] else [value]
  | _ => [s]

/-- The parts of a node that are evaluated with it. -/
def Forest.evaluatedParts (f : Forest) : Node Slot → List Slot
  | .function _ _ _ _ _ _ => []
  | .list .objectLiteral properties => properties.flatMap f.propertyParts
  | n => n.slots

/-- `f.Evaluates depth s t`: evaluating `s` may evaluate `t`, which is `depth` levels below. -/
inductive Forest.Evaluates (f : Forest) : (depth : Nat) → Slot → Slot → Prop
  | self (s : Slot) : f.Evaluates 0 s s
  | part {depth : Nat} {s part t : Slot} {n : Node Slot} (found : f.node? s = some n)
      (evaluated : part ∈ f.evaluatedParts n) (below : f.Evaluates depth part t) :
      f.Evaluates (depth + 1) s t

/-!
## Actions
-/

/-- A property whose key is fixed by the text. -/
def Forest.HasFixedKey (f : Forest) (s : Slot) : Prop :=
  ∃ kind key value computed, f.node? s = some (.property kind key value computed) ∧
    (computed = true → f.satisfies key Node.isLiteral = true)

/-- What a node may do beyond evaluating its parts: call or write something, raise an error, read
a name without a value, or convert something other than a literal to text or to a key. Operands
that an operator converts are not counted. -/
def Bindings.Acts (b : Bindings) (f : Forest) (s : Slot) : Node Slot → Prop
  | .call _ _ _ _ _ | .taggedTemplate _ _ => True
  | .access _ _ _ _ _ => True
  | .binary .assignment _ _ _ | .binary .default _ _ _ => True
  | .binary .binary _ operator _ => operator = .word .in ∨ operator = .word .instanceof
  | .unary .before operator _ => operator = .word .delete ∨ operator.isUpdate = true
  | .unary .after _ _ => True
  | .operand .spread _ | .operand .rest _ | .operand .await _ | .yield _ _ => True
  | .classLike _ _ _ _ => True
  | .name .identifier text =>
      b.isDynamic s = true ∨ b.resolve s = none ∧ globalConstant? text = none
  | .template _ expressions => ∃ e ∈ expressions, f.satisfies e Node.isLiteral = false
  | .list .objectLiteral properties => ∃ p ∈ properties, ¬ f.HasFixedKey p
  | _ => False

/-- The kinds of nodes of which nothing is said: statements and their parts, patterns, private
names, big integers, and the words that stand for something outside the expression. -/
def Node.Unjudged : Node Slot → Prop
  | .bare form => form ≠ .null ∧ form ≠ .this ∧ form ≠ .omitted
  | .function form _ _ _ _ _ => form = .declaration
  | .operand form _ => form ≠ .spread ∧ form ≠ .rest ∧ form ≠ .await
  | .list form _ => form = .arrayPattern ∨ form = .objectPattern
  | .name form _ => form = .privateName
  | .body _ _ | .variableStatement _ _ | .declarator _ _ | .method _ _ _ _ _ | .field _ _ _ _
  | .conditionalStatement _ _ _ | .forLoop _ _ _ _ | .iteration _ _ _ _ _ | .guarded _ _ _
  | .jump _ _ | .tryStatement _ _ _ | .catchClause _ _ | .switch _ _ | .caseClause _ _
  | .labeled _ _ | .bigInt _ | .property _ _ _ _ => True
  | _ => False

/-- Neither the node nor the way it is used can run code, raise an error or write, conversions of
operands apart. -/
def Bindings.IsQuiet (b : Bindings) (f : Forest) (s : Slot) (n : Node Slot) : Prop :=
  ¬ b.Acts f s n ∧ ¬ n.Unjudged

namespace Bindings

variable {b : Bindings} {f : Forest} {s : Slot}

/-!
## One node
-/

/-- Keys are not asked for themselves; a literal is pure wherever the value beside it is. -/
theorem isPureProperty_iff {pure? : Slot → Bool}
    (literal : ∀ {s t}, f.satisfies s Node.isLiteral = true → pure? t = true → pure? s = true)
    {p : Slot} :
    isPureProperty f pure? p = true ↔
      f.HasFixedKey p ∧ ∀ part ∈ f.propertyParts p, pure? part = true := by
  unfold isPureProperty Forest.HasFixedKey Forest.propertyParts
  split
  case h_1 kind key value computed found =>
    cases computed with
    | false => simp [found]
    | true =>
      have beside := literal (s := key) (t := value)
      simp only [found, Bool.not_true, Bool.false_or, Bool.and_eq_true, Option.some.injEq,
        Node.property.injEq, if_true, List.mem_cons, List.not_mem_nil, or_false,
        forall_eq_or_imp, forall_eq]
      grind
  case h_2 other =>
    refine iff_of_false (by simp) ?_
    rintro ⟨⟨kind, key, value, computed, found, -⟩, -⟩
    exact other kind key value computed found

theorem isPureNode_iff {pure? : Slot → Bool}
    (literal : ∀ {s t}, f.satisfies s Node.isLiteral = true → pure? t = true → pure? s = true)
    (n : Node Slot) :
    b.isPureNode f pure? s n = true ↔
      b.IsQuiet f s n ∧ ∀ part ∈ f.evaluatedParts n, pure? part = true := by
  cases n with
  | list form elements =>
    cases form with
    | objectLiteral =>
      simp only [isPureNode, IsQuiet, Acts, Node.Unjudged, Forest.evaluatedParts, List.all_eq_true,
        isPureProperty_iff literal]
      simp
      grind
    | _ => simp [isPureNode, IsQuiet, Acts, Node.Unjudged, Forest.evaluatedParts, Node.slots]
  | bare form => cases form <;>
      simp [isPureNode, IsQuiet, Acts, Node.Unjudged, Forest.evaluatedParts, Node.slots]
  | function form => cases form <;>
      simp [isPureNode, IsQuiet, Acts, Node.Unjudged, Forest.evaluatedParts]
  | operand form => cases form <;> simp [isPureNode, IsQuiet, Acts, Node.Unjudged]
  | name form text =>
    cases form with
    | identifier =>
      simp [isPureNode, IsQuiet, Acts, Node.Unjudged, Forest.evaluatedParts, Node.slots,
        Option.isSome_iff_ne_none, imp_iff_not_or]
    | privateName => simp [isPureNode, IsQuiet, Node.Unjudged]
  | unary form operator argument =>
    cases form with
    | before =>
      simp [isPureNode, IsQuiet, Acts, Node.Unjudged, Forest.evaluatedParts, Node.slots,
        and_assoc]
    | after => simp [isPureNode, IsQuiet, Acts]
  | binary form left operator right =>
    cases form <;>
      simp [isPureNode, IsQuiet, Acts, Node.Unjudged, Forest.evaluatedParts, Node.slots,
        and_assoc]
  | template quasis expressions =>
    simp [isPureNode, IsQuiet, Acts, Node.Unjudged, Forest.evaluatedParts, Node.slots]
    grind
  | conditional condition whenTrue whenFalse =>
    simp [isPureNode, IsQuiet, Acts, Node.Unjudged, Forest.evaluatedParts, Node.slots, and_assoc]
  | string | number | boolean | regularExpression =>
    simp [isPureNode, IsQuiet, Acts, Node.Unjudged, Forest.evaluatedParts, Node.slots]
  | _ => simp [isPureNode, IsQuiet, Acts, Node.Unjudged]

/-!
## Expressions
-/

theorem isPureNode_of_isLiteral {pure? : Slot → Bool} {n : Node Slot} (literal : n.isLiteral = true) :
    b.isPureNode f pure? s n = true := by
  revert literal
  fun_cases Node.isLiteral n <;> simp [isPureNode]

theorem isPureWithin_of_isLiteral {depth : Nat} {t : Slot}
    (literal : f.satisfies s Node.isLiteral = true) (pure : b.isPureWithin f depth t = true) :
    b.isPureWithin f depth s = true := by
  cases depth with
  | zero => cases pure
  | succ depth =>
    rw [Forest.satisfies] at literal
    rw [isPureWithin]
    cases found : f.node? s with
    | none => rfl
    | some n =>
      rw [found] at literal
      exact isPureNode_of_isLiteral literal

theorem isPureWithin_succ {depth : Nat} :
    b.isPureWithin f (depth + 1) s = true ↔
      ∀ n, f.node? s = some n →
        b.IsQuiet f s n ∧ ∀ part ∈ f.evaluatedParts n, b.isPureWithin f depth part = true := by
  rw [isPureWithin]
  cases f.node? s with
  | none => simp
  | some n => simpa using isPureNode_iff isPureWithin_of_isLiteral n

theorem isPureWithin_iff {depth : Nat} :
    b.isPureWithin f depth s = true ↔
      ∀ level t, f.Evaluates level s t →
        level < depth ∧ ∀ n, f.node? t = some n → b.IsQuiet f t n := by
  induction depth generalizing s with
  | zero =>
    refine iff_of_false (by simp [isPureWithin]) fun parts => ?_
    exact absurd (parts 0 s (.self s)).1 (by decide)
  | succ depth below =>
    rw [isPureWithin_succ]
    constructor
    · intro pure level t evaluates
      cases evaluates with
      | self => exact ⟨Nat.succ_pos depth, fun n found => (pure n found).1⟩
      | part found evaluated deeper =>
        obtain ⟨near, quiet⟩ := below.mp ((pure _ found).2 _ evaluated) _ t deeper
        exact ⟨Nat.succ_lt_succ near, quiet⟩
    · intro parts n found
      refine ⟨(parts 0 s (.self s)).2 n found, fun part evaluated => below.mpr ?_⟩
      intro level t deeper
      obtain ⟨near, quiet⟩ := parts (level + 1) t (.part found evaluated deeper)
      exact ⟨Nat.lt_of_succ_lt_succ near, quiet⟩

/-- An expression is pure if none of the parts that are evaluated with it acts by itself, is of a
kind that is not judged, or stands deeper than the limit, and only then. -/
theorem isPure_iff_quiet (b : Bindings) (f : Forest) (s : Slot) :
    b.isPure f s = true ↔
      ∀ depth t, f.Evaluates depth s t →
        depth ≤ Limits.evaluationDepth ∧ ∀ n, f.node? t = some n → b.IsQuiet f t n := by
  simp only [isPure, isPureWithin_iff, Nat.lt_succ_iff]

/-- The negative of an object is pure, although it calls a method of the object. -/
example (b : Bindings) :
    b.isPure ⟨#[⟨.list .objectLiteral [], 0, 0, some 1⟩,
      ⟨.unary .before (.mark .minus) (some 0), 0, 0, none⟩]⟩ (some 1) = true := rfl

end Bindings
end Untangle
