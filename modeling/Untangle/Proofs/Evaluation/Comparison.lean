import Untangle.Proofs.Number.Order

/-!
# Equality and order of values

ECMAScript defines equality by recursion through conversions to numbers, and all four relations by
one test for "less than" that NaN leaves undefined. Comparing values directly, in one step each,
comes to the same results.
-/

namespace Untangle

/-!
## Code units
-/

namespace Text

theorem charUnits_append_inj {c d : Char} {as bs : List Nat}
    (h : charUnits c ++ as = charUnits d ++ bs) : c = d ∧ as = bs := by
  have hc : c.toNat.isValidChar := c.valid
  have hd : d.toNat.isValidChar := d.valid
  have hinj : c.toNat = d.toNat → c = d := Char.toNat_inj.mp
  simp only [Nat.isValidChar] at hc hd
  unfold charUnits at h
  split at h <;> split at h <;> simp only [List.cons_append, List.nil_append, List.cons.injEq] at h
  case isTrue.isTrue => exact ⟨hinj h.1, h.2⟩
  case isTrue.isFalse => omega
  case isFalse.isTrue => omega
  case isFalse.isFalse => exact ⟨hinj (by omega), h.2.2⟩

theorem flatMap_charUnits_inj {cs ds : List Char}
    (h : cs.flatMap charUnits = ds.flatMap charUnits) : cs = ds := by
  have hne : ∀ c rest, charUnits c ++ rest ≠ [] := by
    intro c rest
    unfold charUnits
    split <;> simp
  induction cs generalizing ds with
  | nil =>
      cases ds with
      | nil => rfl
      | cons d ds => exact absurd h.symm (hne d _)
  | cons c cs ih =>
      cases ds with
      | nil => exact absurd h (hne c _)
      | cons d ds =>
          obtain ⟨rfl, hrest⟩ := charUnits_append_inj h
          rw [ih hrest]

/-- A text is determined by its code units. -/
theorem units_inj {s t : String} : units s = units t ↔ s = t :=
  ⟨fun h => String.toList_inj.mp (flatMap_charUnits_inj h), congrArg units⟩

theorem compareUnits_compares (as bs : List Nat) : (compareUnits as bs).Compares as bs := by
  induction as generalizing bs with
  | nil => cases bs <;> simp [compareUnits]
  | cons a as ih =>
      cases bs with
      | nil => simp [compareUnits]
      | cons b bs =>
          unfold compareUnits
          split
          case isTrue h => exact List.cons_lt_cons_iff.mpr (.inl h)
          case isFalse hlt =>
            split
            case isTrue h => exact List.cons_lt_cons_iff.mpr (.inl h)
            case isFalse hgt =>
              obtain rfl : a = b := by omega
              have h := ih bs
              generalize compareUnits as bs = o at h
              cases o
              · exact List.cons_lt_cons_iff.mpr (.inr ⟨rfl, h⟩)
              · exact congrArg (a :: ·) h
              · exact List.cons_lt_cons_iff.mpr (.inr ⟨rfl, h⟩)

theorem compareUnits_swap (as bs : List Nat) :
    compareUnits bs as = (compareUnits as bs).swap :=
  (compareUnits_compares bs as).inj (Ordering.compares_swap.mpr (compareUnits_compares as bs))

end Text

/-!
## The language's comparisons
-/

namespace Value

open Number

/-- Numbers are equal if they are the same and not NaN, or two zeros. -/
def equalNumbers (x y : Float) : Bool :=
  decide (x ≠ .nan ∧ y ≠ .nan ∧ (x = y ∨ x = 0 ∧ y = -0 ∨ x = -0 ∧ y = 0))

/-- The order of the values of two numbers, undefined if one of them is NaN. -/
def lessNumbers? (x y : Float) : Option Bool := do
  let a ← value? x
  let b ← value? y
  return decide (a < b)

def sameType : Value → Value → Bool
  | undefined, undefined | null, null | boolean _, boolean _ | number _, number _
  | string _, string _ => true
  | _, _ => false

def isStrictlyEqual : Value → Value → Bool
  | undefined, undefined => true
  | null, null => true
  | boolean a, boolean b => a == b
  | number x, number y => equalNumbers x y
  | string s, string t => Text.units s == Text.units t
  | _, _ => false

/-- How many conversions to a number are ahead. -/
def conversions : Value → Nat
  | boolean _ | string _ => 1
  | _ => 0

def isLooselyEqual (a b : Value) : Bool :=
  if sameType a b then isStrictlyEqual a b
  else
    match a, b with
    | null, undefined => true
    | undefined, null => true
    | number x, string t => isLooselyEqual (number x) (number (string t).toNumber)
    | string s, number y => isLooselyEqual (number (string s).toNumber) (number y)
    | boolean p, b => isLooselyEqual (number (boolean p).toNumber) b
    | a, boolean q => isLooselyEqual a (number (boolean q).toNumber)
    | _, _ => false
termination_by a.conversions + b.conversions
decreasing_by all_goals simp [conversions]

def isLessThan? (a b : Value) : Option Bool :=
  match a, b with
  | string s, string t => some (decide (Text.units s < Text.units t))
  | a, b => lessNumbers? a.toNumber b.toNumber

inductive Comparison
  | strictEqual
  | strictNotEqual
  | equal
  | notEqual
  | less
  | greater
  | lessEqual
  | greaterEqual

namespace Comparison

def mark : Comparison → Punctuator
  | strictEqual => .strictEqual
  | strictNotEqual => .strictNotEqual
  | equal => .equal
  | notEqual => .notEqual
  | less => .less
  | greater => .greater
  | lessEqual => .lessEqual
  | greaterEqual => .greaterEqual

/-- A relation that is undefined does not hold, whichever way it is put. -/
def holds (a b : Value) : Comparison → Bool
  | strictEqual => isStrictlyEqual a b
  | strictNotEqual => !isStrictlyEqual a b
  | equal => isLooselyEqual a b
  | notEqual => !isLooselyEqual a b
  | less => (isLessThan? a b).getD false
  | greater => (isLessThan? b a).getD false
  | lessEqual => !(isLessThan? b a).getD true
  | greaterEqual => !(isLessThan? a b).getD true

end Comparison

/-!
## Equality
-/

variable {a b : Value} {x y : Float}

theorem beq_eq_equalNumbers : (x == y) = equalNumbers x y := by
  rw [Bool.eq_iff_iff, Float.beq_iff_ne_nan_and_eq, equalNumbers, decide_eq_true_iff]

theorem strictEquals_eq : strictEquals a b = isStrictlyEqual a b := by
  cases a <;> cases b <;> try rfl
  case number.number x y => exact beq_eq_equalNumbers
  case string.string s t =>
    rw [strictEquals, isStrictlyEqual, Bool.eq_iff_iff, beq_iff_eq, beq_iff_eq, Text.units_inj]

theorem isLooselyEqual_number : isLooselyEqual (number x) (number y) = (x == y) := by
  unfold isLooselyEqual
  exact beq_eq_equalNumbers.symm

theorem toNumber_number : (number x).toNumber = x :=
  rfl

theorem looseEquals_eq : looseEquals a b = isLooselyEqual a b := by
  cases hsame : sameType a b with
  | true =>
      unfold isLooselyEqual
      rw [if_pos hsame, ← strictEquals_eq]
      cases a <;> cases b <;> cases hsame <;> rfl
  | false =>
      cases a <;> cases b <;> cases hsame <;>
        simp [looseEquals, isLooselyEqual, isLooselyEqual_number, sameType, isNullish, typeName,
          toNumber_number]

theorem strictEquals_comm : strictEquals a b = strictEquals b a := by
  cases a <;> cases b <;> try rfl
  all_goals exact BEq.comm

theorem looseEquals_comm : looseEquals a b = looseEquals b a := by
  unfold looseEquals
  rw [Bool.or_comm, Bool.and_comm, strictEquals_comm, BEq.comm (a := a.toNumber)]
  simp only [eq_comm (a := a.typeName)]

/-!
## Order
-/

theorem lessNumbers?_eq : lessNumbers? x y = (order? x y).map Ordering.isLT := by
  unfold lessNumbers? order?
  cases value? x with
  | none => rfl
  | some a =>
      cases value? y with
      | none => rfl
      | some b =>
          refine congrArg some ?_
          rw [Bool.eq_iff_iff, decide_eq_true_iff, Ordering.isLT_iff_eq_lt, cmp_eq_lt_iff]

theorem isLessThan?_eq : isLessThan? a b = (compare a b).map Ordering.isLT := by
  have hnumbers : lessNumbers? a.toNumber b.toNumber =
      (compareNumbers a.toNumber b.toNumber).map Ordering.isLT := by
    rw [lessNumbers?_eq, compareNumbers_eq_order?]
  cases a <;> cases b <;> try exact hnumbers
  case string.string s t =>
    refine congrArg some ?_
    rw [Bool.eq_iff_iff, decide_eq_true_iff, Ordering.isLT_iff_eq_lt]
    exact (Text.compareUnits_compares _ _).eq_lt.symm

theorem compare_swap : compare b a = (compare a b).map .swap := by
  have hnumbers : compareNumbers b.toNumber a.toNumber =
      (compareNumbers a.toNumber b.toNumber).map .swap := by
    rw [compareNumbers_eq_order?, compareNumbers_eq_order?, order?_swap]
  cases a <;> cases b <;> try exact hnumbers
  case string.string s t =>
    exact congrArg some (Text.compareUnits_swap _ _)

theorem isLessThan?_eq_swap : isLessThan? b a = (compare a b).map Ordering.isGT := by
  rw [isLessThan?_eq, compare_swap, Option.map_map]
  congr 1
  funext o
  cases o <;> rfl

theorem applyBinary_mark (c : Comparison) (a b : Value) :
    applyBinary (.mark c.mark) a b = some (boolean (c.holds a b)) := by
  cases c <;> refine congrArg (fun h => some (boolean h)) ?_
  case strictEqual => exact strictEquals_eq
  case strictNotEqual => exact congrArg not strictEquals_eq
  case equal => exact looseEquals_eq
  case notEqual => exact congrArg not looseEquals_eq
  case less =>
    rw [Comparison.holds, isLessThan?_eq]
    cases compare a b <;> rfl
  case greater =>
    rw [Comparison.holds, isLessThan?_eq_swap]
    cases compare a b <;> rfl
  case lessEqual =>
    rw [Comparison.holds, isLessThan?_eq_swap]
    rcases compare a b with _ | (_ | _ | _) <;> rfl
  case greaterEqual =>
    rw [Comparison.holds, isLessThan?_eq]
    rcases compare a b with _ | (_ | _ | _) <;> rfl

theorem strictEquals_string {s t : String} :
    strictEquals (string s) (string t) =
      (Text.compareUnits (Text.units s) (Text.units t)).isEq := by
  rw [strictEquals, Bool.eq_iff_iff, beq_iff_eq, Ordering.isEq_iff_eq_eq,
    (Text.compareUnits_compares _ _).eq_eq, Text.units_inj]

/-- The relation that holds between two texts in a given order. -/
def Comparison.ofOrdering : Ordering → Comparison
  | .lt => less
  | .eq => strictEqual
  | .gt => greater

theorem applyBinary_string_iff {c : Comparison} {s t : String}
    (hc : c ∈ [Comparison.less, .strictEqual, .greater]) :
    applyBinary (.mark c.mark) (string s) (string t) = some (boolean true) ↔
      c = .ofOrdering (Text.compareUnits (Text.units s) (Text.units t)) := by
  have hequal : applyBinary (.mark .strictEqual) (string s) (string t) =
      some (boolean (Text.compareUnits (Text.units s) (Text.units t)).isEq) :=
    congrArg (fun h => some (boolean h)) strictEquals_string
  have hless : applyBinary (.mark .less) (string s) (string t) =
      some (boolean (Text.compareUnits (Text.units s) (Text.units t)).isLT) := rfl
  have hgreater : applyBinary (.mark .greater) (string s) (string t) =
      some (boolean (Text.compareUnits (Text.units s) (Text.units t)).isGT) := rfl
  simp only [List.mem_cons, List.not_mem_nil, or_false] at hc
  rcases hc with rfl | rfl | rfl
  · rw [Comparison.mark, hless]
    cases Text.compareUnits (Text.units s) (Text.units t) <;> simp [Comparison.ofOrdering]
  · rw [Comparison.mark, hequal]
    cases Text.compareUnits (Text.units s) (Text.units t) <;> simp [Comparison.ofOrdering]
  · rw [Comparison.mark, hgreater]
    cases Text.compareUnits (Text.units s) (Text.units t) <;> simp [Comparison.ofOrdering]

theorem ofOrdering_mem (o : Ordering) :
    Comparison.ofOrdering o ∈ [Comparison.less, .strictEqual, .greater] := by
  cases o <;> simp [Comparison.ofOrdering]

/-- The eight operators give the results of the language's own definitions. So `==` is symmetric,
and two texts are in one of three relations. -/
theorem applyBinary_comparison :
    (∀ (c : Comparison) (a b : Value),
      applyBinary (.mark c.mark) a b = some (boolean (c.holds a b))) ∧
    (∀ a b : Value, applyBinary (.mark .equal) a b = applyBinary (.mark .equal) b a) ∧
    ∀ s t : String, ∃! c, c ∈ [Comparison.less, .strictEqual, .greater] ∧
      applyBinary (.mark c.mark) (string s) (string t) = some (boolean true) := by
  refine ⟨applyBinary_mark, fun a b => ?_, fun s t => ?_⟩
  · exact congrArg (fun h => some (boolean h)) looseEquals_comm
  · have hmem := ofOrdering_mem (Text.compareUnits (Text.units s) (Text.units t))
    exact ⟨_, ⟨hmem, (applyBinary_string_iff hmem).mpr rfl⟩,
      fun c hc => (applyBinary_string_iff hc.1).mp hc.2⟩

/-- The last character of the basic plane is above the surrogates of the first one beyond it. -/
example : applyBinary (.mark .greater) (string "\uffff") (string "𐀀") =
    some (boolean true) := by
  rfl

end Value
end Untangle
