import LeadScoring.Proofs.Scalar.Whole

/-!
# Comparing doubles by their values

Doubles are compared by their signs, exponents and mantissas, and they are sorted by their words.
For finite doubles both orders are that of the exact values, except that the words put the two zeros
in an order, whose values are equal.

Main results:

- Theorem `Rounding.atMost_iff_value_le`: canonical magnitudes compare as their values.
- Theorems `Binary64.le_iff_toRat_le`, `Binary64.lt_iff_toRat_lt`: finite doubles compare as their
  exact values.
- Theorem `Binary64.toRat_le_of_orderKey_le`: words are in the order of the exact values.
-/

open Float.Model Float.Model.UnpackedFloat

namespace LeadScoring.Rounding

section Magnitudes

variable {m n : ℕ} {e f : ℤ} (hm : Canonical m e) (hn : Canonical n f)

include hm hn

/-- A magnitude that is not above another one does not have the greater value: a greater exponent
comes with all 53 digits. -/
theorem value_le_of_atMost (h : AtMost m e n f) : (m : ℚ) * 2 ^ e ≤ n * 2 ^ f := by
  obtain ⟨hmlog, hmlow, -⟩ := canonical_iff.1 hm
  obtain ⟨-, -, hnform⟩ := canonical_iff.1 hn
  rcases h with hlt | ⟨rfl, hle⟩
  · have hlog : n.log2 = 52 := by omega
    have hn0 : n ≠ 0 := by
      rintro rfl
      simp at hlog
    have hmantissa : (m : ℚ) ≤ 2 ^ 53 := by exact_mod_cast (lt_two_pow_53 hmlog).le
    have hdigits : (2 : ℚ) ^ 52 ≤ n := by exact_mod_cast (Nat.le_log2 hn0).1 hlog.ge
    calc
      (m : ℚ) * 2 ^ e ≤ 2 ^ 53 * 2 ^ e := by gcongr
      _ = 2 ^ 52 * 2 ^ (e + 1) := by
        rw [zpow_add_one₀ two_ne_zero]
        ring
      _ ≤ n * 2 ^ f := by
        gcongr
        · exact one_le_two
        · omega
  · gcongr

/-- The order of canonical magnitudes is that of their values. -/
theorem atMost_iff_value_le : AtMost m e n f ↔ (m : ℚ) * 2 ^ e ≤ n * 2 ^ f := by
  refine ⟨value_le_of_atMost hm hn, fun hle => ?_⟩
  by_contra hnot
  obtain ⟨-, hlow, -⟩ := canonical_iff.1 hn
  obtain ⟨-, -, hform⟩ := canonical_iff.1 hm
  have hpos : 0 < m := by
    by_contra hzero
    obtain rfl : m = 0 := by omega
    simp only [AtMost, Nat.log2_zero] at hnot hform
    omega
  have hunit : (0 : ℚ) < 2 ^ min e f := zpow_pos two_pos _
  rw [← shifted_value (m := m) (min_le_left e f), ← shifted_value (m := n) (min_le_right e f),
    mul_le_mul_iff_left₀ hunit, Nat.cast_le] at hle
  exact absurd (shifted_lt hn hm hpos hnot (min_le_right e f) (min_le_left e f)) (not_lt.2 hle)

end Magnitudes

/-- Numbers compare as their values. -/
theorem le_iff_value_le {u v : UnpackedFloat} (hu : IsNumber u) (hv : IsNumber v) :
    u.le v = true ↔ value u ≤ value v := by
  have hpos : ∀ (m : ℕ) (e : ℤ), 0 < m → (0 : ℚ) < m * 2 ^ e := fun m e hm => by positivity
  match u, v with
  | .zero s, .zero s' => exact iff_of_true (by cases s <;> cases s' <;> rfl) (le_refl 0)
  | .zero s, .finite .positive n f hn => exact iff_of_true rfl (hpos n f hn).le
  | .zero s, .finite .negative n f hn =>
    have hneg := hpos n f hn
    exact iff_of_false Bool.false_ne_true (by simp [value, Sign.apply]; linarith)
  | .finite .positive m e hm, .zero s =>
    have hm' := hpos m e hm
    exact iff_of_false Bool.false_ne_true (by simp [value, Sign.apply]; linarith)
  | .finite .negative m e hm, .zero s =>
    have hm' := hpos m e hm
    exact iff_of_true rfl (by simp [value, Sign.apply]; linarith)
  | .finite .positive m e hm, .finite .positive n f hn =>
    rw [le_positive_iff, atMost_iff_value_le hu.1 hv.1]
    rfl
  | .finite .negative m e hm, .finite .negative n f hn =>
    rw [le_negative_iff, atMost_iff_value_le hv.1 hu.1]
    simp [value, Sign.apply]
  | .finite .positive m e hm, .finite .negative n f hn =>
    have hm' := hpos m e hm
    have hn' := hpos n f hn
    exact iff_of_false Bool.false_ne_true (by simp [value, Sign.apply]; linarith)
  | .finite .negative m e hm, .finite .positive n f hn =>
    have hm' := hpos m e hm
    have hn' := hpos n f hn
    exact iff_of_true rfl (by simp [value, Sign.apply]; linarith)

/-- Of two numbers one is below the other unless that is at most the first. -/
theorem lt_iff_not_le {u v : UnpackedFloat} (hu : IsNumber u) (hv : IsNumber v) :
    u.lt v = true ↔ ¬ v.le u = true := by
  unfold UnpackedFloat.lt UnpackedFloat.le
  match u, v with
  | .zero s, .zero s' => cases s <;> cases s' <;> decide
  | .zero s, .finite s' n f hn => cases s' <;> simp [UnpackedFloat.compare]
  | .finite s m e hm, .zero s' => cases s <;> simp [UnpackedFloat.compare]
  | .finite .positive m e hm, .finite .negative n f hn => simp [UnpackedFloat.compare]
  | .finite .negative m e hm, .finite .positive n f hn => simp [UnpackedFloat.compare]
  | .finite .positive m e hm, .finite .positive n f hn =>
    simp only [UnpackedFloat.compare]
    rw [← Int.compare_swap e f, ← Nat.compare_swap m n]
    cases compare e f <;> cases compare m n <;> decide
  | .finite .negative m e hm, .finite .negative n f hn =>
    simp only [UnpackedFloat.compare]
    rw [← Int.compare_swap e f, ← Nat.compare_swap m n]
    cases compare e f <;> cases compare m n <;> decide

end LeadScoring.Rounding

namespace LeadScoring.Binary64

variable {x y : Float}

/-- Finite doubles compare as their exact values. -/
theorem le_iff_toRat_le (hx : isFinite x = true) (hy : isFinite y = true) :
    x ≤ y ↔ toRat x ≤ toRat y := by
  rw [le_iff, Rounding.le_iff_value_le (isNumber_of_isFinite hx) (isNumber_of_isFinite hy),
    toRat_eq_value hx, toRat_eq_value hy]

/-- Finite doubles are in the order of the numbers that they are. -/
theorem lt_iff_toRat_lt (hx : isFinite x = true) (hy : isFinite y = true) :
    x < y ↔ toRat x < toRat y := by
  rw [lt_iff, Rounding.lt_iff_not_le (isNumber_of_isFinite hx) (isNumber_of_isFinite hy), ← le_iff,
    le_iff_toRat_le hy hx, not_le]

/-! ## Words -/

/-- A finite double is in canonical form, zeros included. -/
theorem canonical_significand (h : isFinite x = true) :
    Rounding.Canonical (significand x) (scale x) := by
  by_cases hzero : significand x = 0
  · have hscale : scale x = -1074 := by
      unfold significand at hzero
      unfold scale
      split_ifs at hzero ⊢
      · rfl
      · omega
    rw [Rounding.canonical_iff, hzero, hscale, Nat.log2_zero]
    omega
  · exact canonical_of_isFinite h hzero

/-- Words without their signs are ordered as magnitudes: by exponents, then by mantissas. -/
theorem atMost_of_magnitudeBits_le (h : magnitudeBits x ≤ magnitudeBits y) :
    Rounding.AtMost (significand x) (scale x) (significand y) (scale y) := by
  unfold Rounding.AtMost significand scale exponentField fractionField
  simp only [Nat.one_shiftLeft]
  split_ifs <;> omega

/-- The exact value of a finite double by its sign and its magnitude. -/
theorem toRat_eq_magnitude (h : isFinite x = true) :
    toRat x = if isNegative x then -((significand x : ℚ) * 2 ^ scale x)
      else (significand x : ℚ) * 2 ^ scale x := by
  rw [toRat_of_isFinite h, sign]
  split_ifs <;> simp [Sign.apply]

/-- Finite doubles are sorted by their exact values. -/
theorem toRat_le_of_orderKey_le (hx : isFinite x = true) (hy : isFinite y = true)
    (h : orderKey x ≤ orderKey y) : toRat x ≤ toRat y := by
  have hmagnitudes : ∀ {a b : Float}, isFinite a = true → isFinite b = true →
      magnitudeBits a ≤ magnitudeBits b →
        (significand a : ℚ) * 2 ^ scale a ≤ significand b * 2 ^ scale b :=
    fun ha hb hle => Rounding.value_le_of_atMost (canonical_significand ha)
      (canonical_significand hb) (atMost_of_magnitudeBits_le hle)
  have hposx : (0 : ℚ) ≤ significand x * 2 ^ scale x := by positivity
  have hposy : (0 : ℚ) ≤ significand y * 2 ^ scale y := by positivity
  rw [toRat_eq_magnitude hx, toRat_eq_magnitude hy]
  unfold orderKey at h
  split_ifs at h ⊢
  · exact neg_le_neg (hmagnitudes hy hx (by omega))
  · linarith
  · omega
  · exact hmagnitudes hx hy (by omega)

end LeadScoring.Binary64
