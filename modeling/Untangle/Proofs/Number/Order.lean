import Mathlib
import Untangle.Evaluation.Operator

/-!
# The order of numbers

A number other than NaN has a value among the rationals and two infinities, and numbers are
compared by their values. The comparison itself looks at exponents before it looks at significands,
which is right because a significand fills its bits unless the exponent is the least one.
-/

namespace Untangle
namespace Number

open Float.Model Float.Model.UnpackedFloat

/-!
## Rationals and infinities
-/

/-- The rationals with an infinity at either end. -/
abbrev Extended := WithBot (WithTop ℚ)

namespace Extended

variable {o : Ordering} {p q : ℚ}

def ofRat (q : ℚ) : Extended :=
  ((q : WithTop ℚ) : WithBot (WithTop ℚ))

theorem bot_lt_ofRat : ⊥ < ofRat q :=
  WithBot.bot_lt_coe _

theorem ofRat_lt_top : ofRat q < ⊤ :=
  WithBot.coe_lt_coe.mpr (WithTop.coe_lt_top q)

theorem ofRat_strictMono : StrictMono ofRat :=
  fun _ _ h => WithBot.coe_lt_coe.mpr (WithTop.coe_lt_coe.mpr h)

theorem compares_ofRat : o.Compares (ofRat p) (ofRat q) ↔ o.Compares p q :=
  ofRat_strictMono.compares

end Extended

/-!
## Significands and exponents
-/

/-- A significand in place: it has its full length unless the exponent is the least one. -/
structure Normal (m : ℕ) (e : ℤ) : Prop where
  lt : m < 2 ^ 53
  le : -1074 ≤ e
  filled : e = -1074 ∨ 2 ^ 52 ≤ m

def magnitude (m : ℕ) (e : ℤ) : ℚ :=
  m * 2 ^ e

section Magnitude

variable {m m₁ m₂ : ℕ} {e e₁ e₂ : ℤ}

theorem magnitude_pos (pos : 0 < m) : 0 < magnitude m e := by
  unfold magnitude
  positivity

theorem magnitude_lt_of_exponent_lt (h₁ : Normal m₁ e₁) (h₂ : Normal m₂ e₂) (hlt : e₁ < e₂) :
    magnitude m₁ e₁ < magnitude m₂ e₂ := by
  have hm₁ : (m₁ : ℚ) < (2 ^ 53 : ℕ) := by exact_mod_cast h₁.lt
  have hm₂ : ((2 ^ 52 : ℕ) : ℚ) ≤ m₂ := by
    exact_mod_cast h₂.filled.resolve_left (by have := h₁.le; omega)
  have he : (2 : ℚ) ^ (e₁ + 1) ≤ 2 ^ e₂ := zpow_le_zpow_right₀ one_le_two hlt
  calc (m₁ : ℚ) * 2 ^ e₁ < (2 ^ 53 : ℕ) * 2 ^ e₁ := by gcongr
    _ = (2 ^ 52 : ℕ) * 2 ^ (e₁ + 1) := by
        rw [zpow_add_one₀ two_ne_zero]
        push_cast
        ring
    _ ≤ m₂ * 2 ^ e₂ := by gcongr

theorem compares_magnitude (h₁ : Normal m₁ e₁) (h₂ : Normal m₂ e₂) :
    ((compare e₁ e₂).then (compare m₁ m₂)).Compares (magnitude m₁ e₁) (magnitude m₂ e₂) := by
  rcases lt_trichotomy e₁ e₂ with hlt | rfl | hlt
  · rw [compare_lt_iff_lt.mpr hlt]
    exact magnitude_lt_of_exponent_lt h₁ h₂ hlt
  · have hpos : (0 : ℚ) < 2 ^ e₁ := by positivity
    have heq : compare m₁ m₂ = cmp (magnitude m₁ e₁) (magnitude m₂ e₁) := by
      rw [magnitude, magnitude, cmp_mul_pos_right hpos, Nat.strictMono_cast.cmp_map_eq,
        cmp_eq_compare]
    rw [compare_eq_iff_eq.mpr rfl, Ordering.eq_then, heq]
    exact cmp_compares _ _
  · rw [compare_gt_iff_gt.mpr hlt]
    exact magnitude_lt_of_exponent_lt h₂ h₁ hlt

end Magnitude

/-!
## Values
-/

def signed : Sign → ℚ → ℚ
  | .positive, q => q
  | .negative, q => -q

def infinite : Sign → Extended
  | .positive => ⊤
  | .negative => ⊥

/-- The value of a number that is not NaN; both zeros have the value zero. -/
def unpackedValue? : UnpackedFloat → Option Extended
  | .notANumber => none
  | .infinity s => some (infinite s)
  | .zero _ => some (Extended.ofRat 0)
  | .finite s m e _ => some (Extended.ofRat (signed s (magnitude m e)))

def Canonical : UnpackedFloat → Prop
  | .finite _ m e _ => Normal m e
  | _ => True

section Comparison

variable {u v : UnpackedFloat} {s₁ s₂ : Sign} {m₁ m₂ : ℕ} {e₁ e₂ : ℤ} {pos₁ : 0 < m₁}
  {pos₂ : 0 < m₂} {a b : Extended}

theorem exists_compares_finite (h₁ : Normal m₁ e₁) (h₂ : Normal m₂ e₂) :
    ∃ o, UnpackedFloat.compare (.finite s₁ m₁ e₁ pos₁) (.finite s₂ m₂ e₂ pos₂) = some o ∧
      o.Compares (signed s₁ (magnitude m₁ e₁)) (signed s₂ (magnitude m₂ e₂)) := by
  have hpos₁ : 0 < magnitude m₁ e₁ := magnitude_pos pos₁
  have hpos₂ : 0 < magnitude m₂ e₂ := magnitude_pos pos₂
  have hcompares := compares_magnitude h₁ h₂
  have hanti : StrictAnti (fun q : ℚ => -q) := fun _ _ => neg_lt_neg
  cases s₁ <;> cases s₂
  case negative.negative =>
    exact ⟨_, rfl, Ordering.compares_swap.mpr (hanti.compares.mpr hcompares)⟩
  case negative.positive => exact ⟨.lt, rfl, (neg_neg_of_pos hpos₁).trans hpos₂⟩
  case positive.negative => exact ⟨.gt, rfl, (neg_neg_of_pos hpos₂).trans hpos₁⟩
  case positive.positive => exact ⟨_, rfl, hcompares⟩

theorem exists_compares (hu : Canonical u) (hv : Canonical v) (ha : unpackedValue? u = some a)
    (hb : unpackedValue? v = some b) :
    ∃ o, UnpackedFloat.compare u v = some o ∧ o.Compares a b := by
  cases u <;> cases v <;> cases ha <;> cases hb
  case infinity.infinity s₁ s₂ =>
    cases s₁ <;> cases s₂
    · exact ⟨.eq, rfl, rfl⟩
    · exact ⟨.lt, rfl, bot_lt_top⟩
    · exact ⟨.gt, rfl, bot_lt_top⟩
    · exact ⟨.eq, rfl, rfl⟩
  case infinity.zero s₁ s₂ =>
    cases s₁
    · exact ⟨.lt, rfl, Extended.bot_lt_ofRat⟩
    · exact ⟨.gt, rfl, Extended.ofRat_lt_top⟩
  case infinity.finite s₁ s₂ m₂ e₂ pos₂ =>
    cases s₁
    · exact ⟨.lt, rfl, Extended.bot_lt_ofRat⟩
    · exact ⟨.gt, rfl, Extended.ofRat_lt_top⟩
  case zero.infinity s₁ s₂ =>
    cases s₂
    · exact ⟨.gt, rfl, Extended.bot_lt_ofRat⟩
    · exact ⟨.lt, rfl, Extended.ofRat_lt_top⟩
  case finite.infinity s₁ m₁ e₁ pos₁ s₂ =>
    cases s₂
    · exact ⟨.gt, rfl, Extended.bot_lt_ofRat⟩
    · exact ⟨.lt, rfl, Extended.ofRat_lt_top⟩
  case zero.zero => exact ⟨.eq, rfl, rfl⟩
  case zero.finite s₁ s₂ m₂ e₂ pos₂ =>
    have hpos := magnitude_pos (e := e₂) pos₂
    cases s₂
    · exact ⟨.gt, rfl, Extended.ofRat_strictMono (neg_neg_of_pos hpos)⟩
    · exact ⟨.lt, rfl, Extended.ofRat_strictMono hpos⟩
  case finite.zero s₁ m₁ e₁ pos₁ s₂ =>
    have hpos := magnitude_pos (e := e₁) pos₁
    cases s₁
    · exact ⟨.lt, rfl, Extended.ofRat_strictMono (neg_neg_of_pos hpos)⟩
    · exact ⟨.gt, rfl, Extended.ofRat_strictMono hpos⟩
  case finite.finite =>
    obtain ⟨o, ho, hcompares⟩ := exists_compares_finite hu hv
    exact ⟨o, ho, Extended.compares_ofRat.mpr hcompares⟩

/-- Numbers are compared by their values, and NaN is not comparable. -/
theorem unpacked_compare (hu : Canonical u) (hv : Canonical v) :
    UnpackedFloat.compare u v =
      (unpackedValue? u).bind fun a => (unpackedValue? v).map fun b => cmp a b := by
  cases ha : unpackedValue? u with
  | none =>
      cases u <;> cases ha
      rfl
  | some a =>
      cases hb : unpackedValue? v with
      | none =>
          cases v <;> cases hb
          cases u <;> rfl
      | some b =>
          obtain ⟨o, ho, hcompares⟩ := exists_compares hu hv ha hb
          rw [ho, ← hcompares.cmp_eq]
          rfl

end Comparison

/-!
## Doubles
-/

theorem normal_subnormal (mantissa : BitVec 52) : Normal mantissa.toNat (-1074) :=
  ⟨mantissa.isLt.trans (by decide), le_rfl, .inl rfl⟩

theorem normal_hidden (exponent : BitVec 11) (mantissa : BitVec 52) (nonzero : exponent ≠ 0#11) :
    Normal (1#1 ++ mantissa).toNat ((exponent.toNat : ℤ) - 1075) := by
  have hbound := mantissa.isLt
  have hvalue : (1#1 ++ mantissa).toNat = 2 ^ 52 + mantissa.toNat := by
    rw [BitVec.toNat_append, ← Nat.shiftLeft_add_eq_or_of_lt hbound]
    rfl
  have hexponent : exponent.toNat ≠ 0 := fun h => nonzero (BitVec.eq_of_toNat_eq h)
  exact ⟨by omega, by omega, .inr (by omega)⟩

theorem canonical_unpack (b : BitVec Format.binary64.numBits) :
    Canonical (UnpackedFloat.unpack .binary64 b) := by
  rw [UnpackedFloat.unpack]
  split
  · split <;> exact trivial
  · split
    case isTrue least =>
      split
      · exact trivial
      · have hleast : (unpackExponent b).toNat = 0 := congrArg BitVec.toNat least
        simp only [Canonical, hleast]
        exact normal_subnormal (unpackMantissa b)
    case isFalse nonzero => exact normal_hidden _ _ nonzero

/-- The value of a double that is not NaN. -/
def value? (x : Float) : Option Extended :=
  unpackedValue? x.toModel.unpack

section Doubles

variable {x y : Float}

/-- The order of the values. -/
def order? (x y : Float) : Option Ordering :=
  (value? x).bind fun a => (value? y).map fun b => cmp a b

theorem compare_unpack :
    UnpackedFloat.compare x.toModel.unpack y.toModel.unpack = order? x y :=
  unpacked_compare (canonical_unpack _) (canonical_unpack _)

theorem lt_iff_order? : x < y ↔ order? x y = some .lt := by
  change decide (x.toModel < y.toModel) = true ↔ _
  rw [decide_eq_true_iff, ← compare_unpack]
  exact beq_iff_eq

theorem beq_iff_order? : (x == y) = true ↔ order? x y = some .eq := by
  rw [← compare_unpack]
  exact beq_iff_eq (α := Option Ordering)

theorem order?_swap : order? y x = (order? x y).map .swap := by
  unfold order?
  cases value? x <;> cases value? y
  · rfl
  · rfl
  · rfl
  · exact congrArg some (cmp_swap ..).symm

theorem compareNumbers_eq_order? : Value.compareNumbers x y = order? x y := by
  rw [Value.compareNumbers]
  simp only [lt_iff_order?, beq_iff_order?, order?_swap (x := x) (y := y)]
  rcases order? x y with _ | (_ | _ | _) <;> rfl

end Doubles
end Number
end Untangle
