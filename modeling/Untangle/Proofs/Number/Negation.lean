import Mathlib
import Untangle.Number.Decimal

/-!
# Negation and NaN

Negating a number flips its sign bit and keeps the exponent and the mantissa, so a number is the
negative of its negative. This holds of infinities and zeros, and NaN is its own negative.

Rounding gives an infinity, a zero or a finite number. So NaN arises from few operands only, and
reading digits never meets them: numerals of any length, and with any exponent, denote numbers.
-/

namespace Untangle
namespace Number

/-!
## Negation
-/

section Negation

open Float.Model.UnpackedFloat

variable {spec : Float.Model.Format} {b : BitVec spec.numBits}

theorem neg_neg_sign (s : Sign) : - -s = s := by
  cases s <;> rfl

theorem neg_neg_unpacked (x : Float.Model.UnpackedFloat) : x.neg.neg = x := by
  cases x <;> simp [Float.Model.UnpackedFloat.neg, neg_neg_sign]

/-- The bits of a number with the other sign. -/
def flipped (spec : Float.Model.Format) (b : BitVec spec.numBits) : BitVec spec.numBits :=
  packComponents spec (-Sign.ofBitVec (unpackSign b)) (unpackExponent b) (unpackMantissa b)

theorem unpack_flipped (b : BitVec spec.numBits) :
    unpack spec (flipped spec b) = (unpack spec b).neg := by
  simp only [unpack, flipped, unpackMantissa_packComponents, unpackExponent_packComponents,
    unpackSign_packComponents, Sign.ofBitVec_toBitVec]
  split
  · split <;> rfl
  · split
    · split <;> rfl
    · rfl

/-- The other sign keeps a number well formed, unless it is NaN, which has one form only. -/
theorem valid_flipped (number : isNaNBits b = false) : spec.Valid (flipped spec b) := by
  refine ⟨fun top nonzero => ?_⟩
  simp only [flipped, unpackExponent_packComponents, unpackMantissa_packComponents] at top nonzero
  simp [isNaNBits, top, nonzero] at number

theorem unpack_pack_neg (valid : spec.Valid b) (wide : 2 ≤ spec.exponentBits) :
    unpack spec (pack spec (unpack spec b).neg) = (unpack spec b).neg := by
  cases number : isNaNBits b with
  | true =>
    have canonical : b = packedNaN spec := by
      rw [← pack_unpack_of_valid valid wide, pack_unpack b wide, if_pos number]
    subst canonical
    rw [unpack_packedNaN]
    exact unpack_packedNaN
  | false =>
    rw [← unpack_flipped, pack_unpack_of_valid (valid_flipped number) wide]

@[simp] theorem neg_neg_float (x : Float) : - -x = x := by
  have wide : 2 ≤ Float.Model.Format.binary64.exponentBits := by decide
  have valid := x.toModel.valid
  have back : pack .binary64 (unpack .binary64 (pack .binary64
      (unpack .binary64 x.toModel.toBits.toBitVec).neg)).neg = x.toModel.toBits.toBitVec := by
    rw [unpack_pack_neg valid wide, neg_neg_unpacked, pack_unpack_of_valid valid wide]
  exact Float.toBits_inj.mp (UInt64.toBitVec_inj.mp back)

end Negation

open Float.Model Float.Model.UnpackedFloat

/-!
## Arithmetic
-/

section Arithmetic

variable {spec : Format} {u v : UnpackedFloat}

theorem isNaN_roundWithAccuracy {s : Sign} {m : ℕ} {e : ℤ} {accuracy : Accuracy} :
    (roundWithAccuracy spec s m e accuracy).isNaN = false := by
  unfold roundWithAccuracy
  dsimp only
  split <;> rfl

theorem isNaN_normalize {m e : ℤ} {s : Sign} :
    (UnpackedFloat.normalize spec m e s).isNaN = false := by
  unfold UnpackedFloat.normalize UnpackedFloat.round
  split
  · exact isNaN_roundWithAccuracy
  · rfl
  · exact isNaN_roundWithAccuracy

def isFinite : UnpackedFloat → Bool
  | .finite .. | .zero _ => true
  | _ => false

def isNonzero : UnpackedFloat → Bool
  | .finite .. => true
  | _ => false

theorem isNaN_add (hu : u.isNaN = false) (hv : isFinite v) :
    (UnpackedFloat.add spec u v).isNaN = false := by
  cases v <;> cases hv
  case zero s =>
    cases u
    case notANumber => cases hu
    case zero t => cases s <;> cases t <;> rfl
    all_goals rfl
  case finite s m e pos =>
    cases u
    case notANumber => cases hu
    case finite => exact isNaN_normalize
    all_goals rfl

theorem isNaN_mul (hu : u.isNaN = false) (hv : isNonzero v) :
    (UnpackedFloat.mul spec u v).isNaN = false := by
  cases v <;> cases hv
  cases u
  case notANumber => cases hu
  case finite => exact isNaN_roundWithAccuracy
  all_goals rfl

theorem isNaN_div (hu : u.isNaN = false) (hv : isNonzero v) :
    (UnpackedFloat.div spec u v).isNaN = false := by
  cases v <;> cases hv
  cases u
  case notANumber => cases hu
  case finite => exact isNaN_roundWithAccuracy
  all_goals rfl

theorem isNaN_neg (hu : u.isNaN = false) : u.neg.isNaN = false := by
  cases u <;> exact hu

theorem isNaN_ofScientific {m : ℕ} {e : ℤ} :
    (UnpackedFloat.ofScientific spec m e).isNaN = false := by
  unfold UnpackedFloat.ofScientific
  split
  · rfl
  · split
    · rfl
    · split
      · rfl
      · split
        · exact isNaN_mul rfl rfl
        · exact isNaN_div rfl rfl

end Arithmetic

/-!
## Bits
-/

theorem isNaN_unpack {b : BitVec Format.binary64.numBits} (h : unpackExponent b ≠ -1#11) :
    (UnpackedFloat.unpack .binary64 b).isNaN = false := by
  rw [UnpackedFloat.unpack, if_neg h]
  split
  · split <;> rfl
  · rfl

theorem ofNat_ne_top {n : ℕ} (h : n + 1 < 2 ^ 11) : BitVec.ofNat 11 n ≠ -1#11 := by
  intro heq
  have hvalue : n % 2 ^ 11 = 2047 := congrArg BitVec.toNat heq
  omega

theorem isNaN_packedInfinity (s : Sign) :
    (UnpackedFloat.unpack .binary64 (packedInfinity .binary64 s)).isNaN = false := by
  cases s <;> rfl

/-- Rounding to the format may overflow, but the outcome stays a number. -/
theorem isNaN_unpack_pack {u : UnpackedFloat} (h : u.isNaN = false) :
    (UnpackedFloat.unpack .binary64 (UnpackedFloat.pack .binary64 u)).isNaN = false := by
  cases u with
  | notANumber => cases h
  | infinity s => exact isNaN_packedInfinity s
  | zero s => cases s <;> rfl
  | finite s m e pos =>
      rw [UnpackedFloat.pack]
      dsimp only
      split
      case isTrue => exact isNaN_packedInfinity s
      case isFalse hsmall =>
        split <;> refine isNaN_unpack ?_ <;> rw [unpackExponent_packComponents]
        · exact ofNat_ne_top (Nat.not_le.mp hsmall)
        · decide

/-!
## Doubles
-/

variable {x y : Float}

theorem isNaN_add_float (hx : x.isNaN = false) (hy : isFinite y.toModel.unpack) :
    (x + y).isNaN = false :=
  isNaN_unpack_pack (isNaN_add hx hy)

theorem isNaN_mul_float (hx : x.isNaN = false) (hy : isNonzero y.toModel.unpack) :
    (x * y).isNaN = false :=
  isNaN_unpack_pack (isNaN_mul hx hy)

theorem isNaN_div_float (hx : x.isNaN = false) (hy : isNonzero y.toModel.unpack) :
    (x / y).isNaN = false :=
  isNaN_unpack_pack (isNaN_div hx hy)

theorem isNaN_neg_float (hx : x.isNaN = false) : (-x).isNaN = false :=
  isNaN_unpack_pack (isNaN_neg hx)

theorem isNaN_toFloat (n : UInt64) : n.toFloat.isNaN = false :=
  isNaN_unpack_pack isNaN_normalize

theorem isNaN_ofScientific_float (m : ℕ) (negative : Bool) (e : ℕ) :
    (Float.ofScientific m negative e).isNaN = false := by
  have htable : ∀ i : Fin 23,
      isNonzero (Float.exactlyRepresentablePowersOfTen[i]).toModel.unpack := by decide +kernel
  unfold Float.ofScientific
  split
  case isTrue h =>
    have hpower := htable ⟨e, by omega⟩
    dsimp only
    split
    · exact isNaN_div_float (isNaN_toFloat _) hpower
    · exact isNaN_mul_float (isNaN_toFloat _) hpower
  case isFalse => exact isNaN_unpack_pack isNaN_ofScientific

/-!
## Numerals
-/

theorem isNaN_decimal (d : Decimal) : d.toFloat.isNaN = false := by
  unfold Decimal.toFloat
  dsimp only
  split
  · decide
  · split
    · decide
    · split
      · decide
      · exact isNaN_ofScientific_float ..

theorem isNaN_of_ofDecimal? {cs : List Char} (h : ofDecimal? cs = some x) : x.isNaN = false := by
  obtain ⟨d, -, rfl⟩ := Option.map_eq_some_iff.mp h
  exact isNaN_decimal d

theorem isNaN_of_ofSignedDecimal? {cs : List Char} (h : ofSignedDecimal? cs = some x) :
    x.isNaN = false := by
  unfold ofSignedDecimal? at h
  split at h
  · obtain ⟨y, hy, rfl⟩ := Option.map_eq_some_iff.mp h
    exact isNaN_neg_float (isNaN_of_ofDecimal? hy)
  · exact isNaN_of_ofDecimal? h
  · exact isNaN_of_ofDecimal? h

theorem isNaN_radixValue {radix : ℕ} {digits : List ℕ} (hradix : radix ∈ [16, 8, 2])
    (hdigits : ∀ d ∈ digits, d < 16) : (radixValue radix digits).isNaN = false := by
  have hscale : ∀ r ∈ [16, 8, 2], isNonzero (Float.ofNat r).toModel.unpack := by decide
  have hdigit : ∀ d < 16, isFinite (Float.ofNat d).toModel.unpack := by decide
  have hfold : ∀ value : Float, value.isNaN = false →
      (digits.foldl (fun value digit => value * Float.ofNat radix + Float.ofNat digit)
        value).isNaN = false := by
    induction digits with
    | nil => exact fun _ h => h
    | cons d digits ih =>
        intro value hvalue
        refine ih (fun d hd => hdigits d (List.mem_cons_of_mem _ hd)) _ ?_
        exact isNaN_add_float (isNaN_mul_float hvalue (hscale radix hradix))
          (hdigit d (hdigits d List.mem_cons_self))
  exact hfold 0 (by decide)

end Number
end Untangle
