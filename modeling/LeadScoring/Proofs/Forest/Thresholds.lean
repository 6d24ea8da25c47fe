import LeadScoring.Forest.Growth
import LeadScoring.Proofs.Scalar.Exact
import LeadScoring.Proofs.Scalar.Infinity

/-!
# Thresholds between values

A cut asks for the middle of two neighbouring values.  Rounding may move the middle up to the upper
value, or make it infinite when the values lie far apart; the lower value is taken then.  So a
threshold always keeps the lower value on its left and the upper one on its right.

Main results:

- Theorem `Cut.not_le_thresholdBetween`: the upper value lies on the right.
- Theorems `Cut.le_thresholdBetween`, `Cut.isFinite_thresholdBetween`: of two doubles, neither of
  them negative infinity or not-a-number, the lower one lies on the left, and the threshold is
  finite.
- Class `SplitsBetween`: arithmetic in which the lower value lies on the left.
- The instances for `Float` and `Rat`.
-/

namespace LeadScoring

/-- The upper of two values lies on the right of the threshold between them. -/
theorem Cut.not_le_thresholdBetween {α : Type} [Scalar α] {value next : α} (h : ¬ next ≤ value) :
    ¬ next ≤ Cut.thresholdBetween value next := by
  unfold Cut.thresholdBetween
  dsimp only
  split_ifs with hmiddle
  · exact h
  · exact hmiddle

section Doubles

open Binary64 (BoundedBelow)

variable {value next : Float}

/-- The middle of two doubles is not below the lower one: neither their difference nor its half is
negative, and a sum with what is not negative is not below the summand. -/
theorem Cut.le_thresholdBetween (hvalue : BoundedBelow value) (hnext : BoundedBelow next)
    (h : ¬ next ≤ value) : value ≤ Cut.thresholdBetween value next := by
  have hfinite := Binary64.isFinite_of_not_le hnext hvalue h
  unfold Cut.thresholdBetween
  dsimp only
  split_ifs
  · exact Binary64.le_self hfinite
  · exact Binary64.le_add_right hfinite
      (Binary64.half_nonneg (Binary64.nonneg_sub hnext hvalue h))

/-- The threshold lies between a finite value and one that it does not reach. -/
theorem Cut.isFinite_thresholdBetween (hvalue : BoundedBelow value) (hnext : BoundedBelow next)
    (h : ¬ next ≤ value) : Scalar.isFinite (Cut.thresholdBetween value next) = true :=
  Binary64.isFinite_of_between (Binary64.isFinite_of_not_le hnext hvalue h) hnext
    (Cut.le_thresholdBetween hvalue hnext h) (Cut.not_le_thresholdBetween h)

end Doubles

/-- Arithmetic in which the lower of two finite values lies on the left of the threshold between
them. -/
class SplitsBetween (α : Type) [Scalar α] : Prop where
  isFinite_zero : Scalar.isFinite (0 : α) = true
  le_thresholdBetween : ∀ {value next : α}, Scalar.isFinite value = true →
    Scalar.isFinite next = true → ¬ next ≤ value → value ≤ Cut.thresholdBetween value next

instance : SplitsBetween Float where
  isFinite_zero := by decide
  le_thresholdBetween hvalue hnext h := Cut.le_thresholdBetween (Or.inl hvalue) (Or.inl hnext) h

instance : SplitsBetween ℚ where
  isFinite_zero := rfl
  le_thresholdBetween {value next} _ _ h := by
    unfold Cut.thresholdBetween
    dsimp only
    split_ifs
    · exact le_refl value
    · have htwo : (2.0 : ℚ) = 2 := by norm_num
      have hgap : (0 : ℚ) ≤ (next - value) / 2 := by linarith
      change value ≤ value + (next - value) / 2.0
      rw [htwo]
      linarith

end LeadScoring
