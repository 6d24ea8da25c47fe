import LeadScoring.Proofs.Scalar.Whole

/-!
# Doubles above negative infinity

Finite doubles and positive infinity are compared and subtracted as one expects: of two that can be
told apart the lower one is finite, and their difference is not negative.  Negative infinity and
not-a-number are not of this kind.

Main results:

- Definition `Binary64.BoundedBelow`: finite or positive infinity.
- Theorem `Binary64.isFinite_of_not_le`: the lower one of two is finite.
- Theorem `Binary64.nonneg_sub`: their difference is not negative.
- Theorem `Binary64.isFinite_of_between`: what lies between is finite.
-/

open Float.Model Float.Model.UnpackedFloat

namespace LeadScoring.Rounding.IsNumber

variable {u : UnpackedFloat}

theorem not_le_notANumber (hu : IsNumber u) : u.le .notANumber = false := by
  match u, hu with
  | .zero s, _ => rfl
  | .finite s m e hm, _ => cases s <;> rfl

theorem not_le_infinity (hu : IsNumber u) : u.le (.infinity .negative) = false := by
  match u, hu with
  | .zero s, _ => rfl
  | .finite s m e hm, _ => cases s <;> rfl

theorem le_infinity (hu : IsNumber u) : u.le (.infinity .positive) = true := by
  match u, hu with
  | .zero s, _ => rfl
  | .finite s m e hm, _ => cases s <;> rfl

/-- A number taken away from infinity leaves infinity. -/
theorem infinity_sub (hu : IsNumber u) :
    UnpackedFloat.sub Format.binary64 (.infinity .positive) u = .infinity .positive := by
  match u, hu with
  | .zero s, _ => rfl
  | .finite s m e hm, _ => rfl

end LeadScoring.Rounding.IsNumber

namespace LeadScoring.Binary64

variable {x y z : Float}

/-- A double that is not finite is not-a-number or an infinity. -/
theorem unpack_of_not_isFinite (h : isFinite x = false) :
    (isNaN x = true ∧ x.toModel.unpack = .notANumber) ∨
      (isNaN x = false ∧ x.toModel.unpack = .infinity (sign x)) := by
  have hfield : exponentField x = 2047 := by simpa [isFinite] using h
  have hones : @unpackExponent Format.binary64 x.toModel.toBits.toBitVec = -1#11 := by
    apply BitVec.eq_of_toNat_eq
    rw [← exponentField_eq, hfield]
    rfl
  have hunpack : x.toModel.unpack =
      if @unpackMantissa Format.binary64 x.toModel.toBits.toBitVec = 0#52 then
        .infinity (sign x)
      else .notANumber := by
    rw [sign_eq]
    unfold Float.Model.unpack UnpackedFloat.unpack
    dsimp only
    rw [if_pos hones]
  have hnan : isNaN x = true ↔
      @unpackMantissa Format.binary64 x.toModel.toBits.toBitVec ≠ 0#52 := by
    rw [isNaN, hfield, fractionField_eq, ne_eq, ← BitVec.toNat_inj]
    simp
  rw [hunpack]
  split_ifs with hmantissa
  · right
    exact ⟨by simpa [hmantissa] using hnan, rfl⟩
  · left
    exact ⟨hnan.2 hmantissa, rfl⟩

/-- A double that is finite or positive infinity. -/
def BoundedBelow (x : Float) : Prop :=
  isFinite x = true ∨ (isNaN x = false ∧ isNegative x = false)

instance (x : Float) : Decidable (BoundedBelow x) :=
  inferInstanceAs (Decidable (_ ∨ _))

/-- A double is bounded below exactly if it is finite or positive infinity. -/
theorem boundedBelow_iff :
    BoundedBelow x ↔ isFinite x = true ∨ x.toModel.unpack = .infinity .positive := by
  unfold BoundedBelow
  cases hfinite : isFinite x with
  | true => simp
  | false =>
    have hsign : sign x = .positive ↔ isNegative x = false := by
      unfold sign
      cases isNegative x <;> simp
    rcases unpack_of_not_isFinite hfinite with ⟨hnan, hunpack⟩ | ⟨hnan, hunpack⟩
    · simp [hnan, hunpack]
    · simp [hnan, hunpack, hsign]

/-- Nothing bounded below is above positive infinity. -/
theorem BoundedBelow.le_infinity (hx : BoundedBelow x)
    (hy : y.toModel.unpack = .infinity .positive) : x ≤ y := by
  rw [le_iff, hy]
  rcases boundedBelow_iff.1 hx with hfinite | hinfinity
  · exact (isNumber_of_isFinite hfinite).le_infinity
  · rw [hinfinity]
    rfl

/-- What another double is above of is finite. -/
theorem isFinite_of_not_le (hx : BoundedBelow x) (hy : BoundedBelow y) (h : ¬ x ≤ y) :
    isFinite y = true :=
  (boundedBelow_iff.1 hy).resolve_right fun hinfinity => h (hx.le_infinity hinfinity)

/-- The difference of two doubles is not negative unless the first one is below the second. -/
theorem nonneg_sub (hx : BoundedBelow x) (hy : BoundedBelow y) (h : ¬ x ≤ y) :
    (0.0 : Float) ≤ x - y := by
  have hy_finite := isFinite_of_not_le hx hy h
  rcases boundedBelow_iff.1 hx with hfinite | hinfinity
  · exact sub_nonneg hfinite hy_finite h
  · rw [nonneg_iff]
    apply Rounding.nonneg_pack
    rw [hinfinity, (isNumber_of_isFinite hy_finite).infinity_sub]
    rfl

/-- A finite double is below finite doubles and positive infinity only. -/
theorem isFinite_or_infinity_of_le (hx : isFinite x = true) (hxy : x ≤ y) :
    isFinite y = true ∨ y.toModel.unpack = .infinity .positive := by
  rw [or_iff_not_imp_left, Bool.not_eq_true]
  intro hfinite
  have hnumber := isNumber_of_isFinite hx
  rw [le_iff] at hxy
  rcases unpack_of_not_isFinite hfinite with ⟨-, hunpack⟩ | ⟨-, hunpack⟩
  · rw [hunpack, hnumber.not_le_notANumber] at hxy
    cases hxy
  · rw [hunpack] at hxy ⊢
    cases hsign : sign y with
    | positive => rfl
    | negative =>
      rw [hsign, hnumber.not_le_infinity] at hxy
      cases hxy

/-- What is not below a finite double and does not reach another one is finite. -/
theorem isFinite_of_between (hx : isFinite x = true) (hz : BoundedBelow z) (hxy : x ≤ y)
    (hzy : ¬ z ≤ y) : isFinite y = true :=
  (isFinite_or_infinity_of_le hx hxy).resolve_right fun hinfinity => hzy (hz.le_infinity hinfinity)

end LeadScoring.Binary64
