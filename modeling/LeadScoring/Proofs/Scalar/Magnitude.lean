import LeadScoring.Proofs.Scalar.Comparison
import LeadScoring.Proofs.Scalar.Infinity

/-!
# Magnitudes of doubles

Explanations are ranked by the words of magnitudes.  Words of doubles without a sign are in the
order of the doubles, infinity being the greatest of them, and that of not-a-number is greater
still.

Main results:

- Theorem `Binary64.unpack_abs`: the magnitude of a double without its sign.
- Definition `Binary64.MagnitudeLe`: the order of magnitudes, not-a-number being the greatest one.
- Theorem `Binary64.totalLe_magnitude_iff`: words of magnitudes are in this order.
-/

open Float.Model Float.Model.UnpackedFloat

namespace LeadScoring.Rounding

/-- Infinity is not at most a number. -/
theorem IsNumber.infinity_not_le {u : UnpackedFloat} (hu : IsNumber u) :
    (UnpackedFloat.infinity .positive).le u = false := by
  match u, hu with
  | .zero s, _ => rfl
  | .finite s m e hm, _ => cases s <;> rfl

end LeadScoring.Rounding

namespace LeadScoring.Binary64

variable {x y : Float}

/-! ## Doubles without a sign -/

/-- A double that is neither negative nor not-a-number. -/
def Unsigned (x : Float) : Prop :=
  isNaN x = false ∧ isNegative x = false

/-- Infinity is the only unsigned double that is not finite. -/
theorem Unsigned.unpack_of_infinite (hx : Unsigned x) (h : isFinite x = false) :
    x.toModel.unpack = .infinity .positive :=
  (boundedBelow_iff.1 (Or.inr hx)).resolve_left (by simp [h])

/-- Without a sign the order of doubles is that of their words. -/
theorem orderKey_of_unsigned (hx : isNegative x = false) : orderKey x = magnitudeBits x := by
  rw [orderKey, hx]
  rfl

/-- The word of a finite double is below that of infinity. -/
theorem magnitudeBits_lt_of_isFinite (h : isFinite x = true) : magnitudeBits x < 2047 * 2 ^ 52 := by
  have hfield : exponentField x ≠ 2047 := by simpa [isFinite] using h
  have hlt : magnitudeBits x < 2 ^ 63 := Nat.mod_lt _ (by decide)
  simp only [exponentField, Nat.one_shiftLeft] at hfield
  omega

/-- The word of an infinity. -/
theorem magnitudeBits_of_infinite (h : isFinite x = false) (hnan : isNaN x = false) :
    magnitudeBits x = 2047 * 2 ^ 52 := by
  have hfield : exponentField x = 2047 := by simpa [isFinite] using h
  have hfraction : fractionField x = 0 := by simpa [isNaN, hfield] using hnan
  simp only [exponentField, fractionField, Nat.one_shiftLeft] at hfield hfraction
  omega

/-- Words without their signs are ordered exactly as magnitudes. -/
theorem magnitudeBits_le_iff :
    magnitudeBits x ≤ magnitudeBits y ↔
      Rounding.AtMost (significand x) (scale x) (significand y) (scale y) := by
  refine ⟨atMost_of_magnitudeBits_le, fun h => ?_⟩
  unfold Rounding.AtMost significand scale exponentField fractionField at h
  simp only [Nat.one_shiftLeft] at h
  split_ifs at h <;> omega

/-- Doubles without a sign compare as their words. -/
theorem magnitudeBits_le_iff_le (hx : Unsigned x) (hy : Unsigned y) :
    magnitudeBits x ≤ magnitudeBits y ↔ x ≤ y := by
  cases hx_finite : isFinite x with
  | true =>
    cases hy_finite : isFinite y with
    | true =>
      rw [le_iff_toRat_le hx_finite hy_finite, toRat_eq_magnitude hx_finite,
        toRat_eq_magnitude hy_finite, if_neg (by simp [hx.2]), if_neg (by simp [hy.2]),
        magnitudeBits_le_iff, Rounding.atMost_iff_value_le (canonical_significand hx_finite)
          (canonical_significand hy_finite)]
    | false =>
      have hbits := magnitudeBits_of_infinite hy_finite hy.1
      have hlt := magnitudeBits_lt_of_isFinite hx_finite
      exact iff_of_true (by omega) (BoundedBelow.le_infinity (Or.inl hx_finite)
        (hy.unpack_of_infinite hy_finite))
  | false =>
    have hbits := magnitudeBits_of_infinite hx_finite hx.1
    cases hy_finite : isFinite y with
    | true =>
      have hlt := magnitudeBits_lt_of_isFinite hy_finite
      refine iff_of_false (by omega) fun hle => ?_
      rw [le_iff, hx.unpack_of_infinite hx_finite,
        (isNumber_of_isFinite hy_finite).infinity_not_le] at hle
      cases hle
    | false =>
      rw [hbits, magnitudeBits_of_infinite hy_finite hy.1]
      exact iff_of_true (le_refl _) (BoundedBelow.le_infinity (Or.inr hx)
        (hy.unpack_of_infinite hy_finite))

/-! ## Magnitudes -/

/-- The magnitude of a double without its sign. -/
theorem unpack_abs (x : Float) : x.abs.toModel.unpack = x.toModel.unpack.abs := by
  have hpack : x.abs.toModel.unpack = UnpackedFloat.unpack Format.binary64
      (UnpackedFloat.pack Format.binary64 x.toModel.unpack.abs) := rfl
  rw [hpack]
  cases hfinite : isFinite x with
  | true =>
    apply Rounding.unpack_pack_of_isNumber
    have hnumber := isNumber_of_isFinite hfinite
    revert hnumber
    cases x.toModel.unpack <;> exact id
  | false =>
    rcases unpack_of_not_isFinite hfinite with ⟨-, hunpack⟩ | ⟨-, hunpack⟩
    · rw [hunpack]
      rfl
    · rw [hunpack]
      exact Rounding.unpack_packedInfinity .positive

theorem isNaN_iff_unpack : isNaN x = true ↔ x.toModel.unpack = .notANumber := by
  cases hfinite : isFinite x with
  | true =>
    have hfield : exponentField x ≠ 2047 := by simpa [isFinite] using hfinite
    refine iff_of_false (by simp [isNaN, hfield]) fun hunpack => ?_
    have hnumber := isNumber_of_isFinite hfinite
    rw [hunpack] at hnumber
    exact hnumber
  | false =>
    rcases unpack_of_not_isFinite hfinite with ⟨hnan, hunpack⟩ | ⟨hnan, hunpack⟩
    · exact iff_of_true hnan hunpack
    · rw [hnan, hunpack]
      exact iff_of_false Bool.false_ne_true (by rintro ⟨⟩)

theorem isNaN_abs (x : Float) : isNaN x.abs = isNaN x := by
  rw [Bool.eq_iff_iff, isNaN_iff_unpack, isNaN_iff_unpack, unpack_abs]
  cases x.toModel.unpack <;> simp [UnpackedFloat.abs]

/-- The sign of an unpacked double. -/
def unpackedSign : UnpackedFloat → Sign
  | .zero s => s
  | .infinity s => s
  | .finite s _ _ _ => s
  | .notANumber => .positive

theorem unpackedSign_unpack (h : isNaN x = false) : unpackedSign x.toModel.unpack = sign x := by
  cases hfinite : isFinite x with
  | true =>
    rcases unpack_of_isFinite hfinite with ⟨-, hunpack⟩ | ⟨hm, hunpack⟩ <;> rw [hunpack] <;> rfl
  | false =>
    rcases unpack_of_not_isFinite hfinite with ⟨hnan, -⟩ | ⟨-, hunpack⟩
    · rw [h] at hnan
      cases hnan
    · rw [hunpack]
      rfl

/-- The magnitude of a number has no sign. -/
theorem unsigned_abs (h : isNaN x = false) : Unsigned x.abs := by
  have hnan : isNaN x.abs = false := by rw [isNaN_abs, h]
  have hsign : sign x.abs = .positive := by
    rw [← unpackedSign_unpack hnan, unpack_abs]
    cases x.toModel.unpack <;> rfl
  refine ⟨hnan, ?_⟩
  rw [sign] at hsign
  split_ifs at hsign with hnegative
  simpa using hnegative

theorem orderKey_abs (h : isNaN x = false) : orderKey x.abs = magnitudeBits x.abs :=
  orderKey_of_unsigned (unsigned_abs h).2

/-- No number has a larger word than infinity. -/
theorem magnitudeBits_le_infinity (h : isNaN x = false) : magnitudeBits x ≤ 2047 * 2 ^ 52 := by
  cases hfinite : isFinite x with
  | true => exact (magnitudeBits_lt_of_isFinite hfinite).le
  | false => exact (magnitudeBits_of_infinite hfinite h).le

/-- There is one word for not-a-number. -/
theorem orderKey_abs_of_isNaN (h : isNaN x = true) : orderKey x.abs = 2047 * 2 ^ 52 + 2 ^ 51 := by
  have hmodel : x.abs.toModel = Float.Model.pack x.toModel.unpack.abs := rfl
  have hword : ∀ y : Float, y.toModel = Float.Model.pack .notANumber →
      orderKey y = 2047 * 2 ^ 52 + 2 ^ 51 := by
    rintro ⟨model⟩ rfl
    decide
  rw [isNaN_iff_unpack.1 h] at hmodel
  exact hword x.abs hmodel

/-- A magnitude is at most another one.  That of not-a-number is the greatest of all. -/
def MagnitudeLe (x y : Float) : Prop :=
  isNaN y = true ∨ (isNaN x = false ∧ x.abs ≤ y.abs)

/-- Magnitudes are sorted by size, not-a-number standing above infinity. -/
theorem totalLe_magnitude_iff (x y : Float) :
    Scalar.totalLe (Scalar.magnitude x) (Scalar.magnitude y) = true ↔ MagnitudeLe x y := by
  have hkeys : Scalar.totalLe (Scalar.magnitude x) (Scalar.magnitude y) = true ↔
      orderKey x.abs ≤ orderKey y.abs := decide_eq_true_iff
  rw [hkeys, MagnitudeLe]
  cases hx : isNaN x with
  | true =>
    rw [orderKey_abs_of_isNaN hx]
    cases hy : isNaN y with
    | true => simp [orderKey_abs_of_isNaN hy]
    | false =>
      have hbits := magnitudeBits_le_infinity (unsigned_abs hy).1
      rw [orderKey_abs hy]
      exact iff_of_false (by omega) (by simp)
  | false =>
    rw [orderKey_abs hx]
    cases hy : isNaN y with
    | true =>
      have hbits := magnitudeBits_le_infinity (unsigned_abs hx).1
      rw [orderKey_abs_of_isNaN hy]
      exact iff_of_true (by omega) (Or.inl rfl)
    | false =>
      rw [orderKey_abs hy, Int.ofNat_le,
        magnitudeBits_le_iff_le (unsigned_abs hx) (unsigned_abs hy)]
      simp

end LeadScoring.Binary64
