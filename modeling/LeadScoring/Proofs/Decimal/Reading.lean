import LeadScoring.Decimal.Numeral
import LeadScoring.Proofs.Scalar.Scientific

/-!
# Decimals that are read as doubles

A decimal that lies in the window of a double is read as that double, in whatever digits and with
whatever exponent it is given.

Main results:

- Definition `Decimal.value`: the number that a decimal denotes.
- Theorem `Decimal.toFloat_of_roundsTo`: reading rounds correctly.
-/

open Float.Model Float.Model.UnpackedFloat

namespace LeadScoring

namespace Decimal

/-- The number that a decimal denotes. -/
def value (d : Decimal) : ℚ :=
  d.digits * 10 ^ d.exponent

/-! ## The leading digit -/

/-- A number is below the power of ten with as many digits behind the one. -/
theorem digits_lt (n : ℕ) : n < 10 ^ (Nat.toDigits 10 n).length :=
  (Nat.length_toDigits_le_iff (by decide) Nat.length_toDigits_pos).1 le_rfl

/-- A positive number is at least the smallest number with as many digits. -/
theorem le_digits {n : ℕ} (hn : 0 < n) : 10 ^ ((Nat.toDigits 10 n).length - 1) ≤ n := by
  rcases Nat.eq_zero_or_pos ((Nat.toDigits 10 n).length - 1) with h | h
  · rw [h]
    exact hn
  · by_contra hlt
    have hlength := (Nat.length_toDigits_le_iff (by decide) h).2 (not_le.1 hlt)
    omega

/-- The power of ten behind the first digit is above the value. -/
theorem value_lt (d : Decimal) :
    d.value < 10 ^ (d.exponent + (Nat.toDigits 10 d.digits).length) := by
  have hdigits : (d.digits : ℚ) < 10 ^ (Nat.toDigits 10 d.digits).length := by
    exact_mod_cast digits_lt d.digits
  rw [value, add_comm, zpow_add₀ (by norm_num), zpow_natCast]
  exact mul_lt_mul_of_pos_right hdigits (by positivity)

/-- The power of ten of the first digit is not above the value. -/
theorem le_value {d : Decimal} (hd : 0 < d.digits) :
    10 ^ (d.exponent + (Nat.toDigits 10 d.digits).length - 1) ≤ d.value := by
  have hdigits : (10 : ℚ) ^ ((Nat.toDigits 10 d.digits).length - 1) ≤ d.digits := by
    exact_mod_cast le_digits hd
  have hlength : d.exponent + (Nat.toDigits 10 d.digits).length - 1 =
      ((Nat.toDigits 10 d.digits).length - 1 : ℕ) + d.exponent := by
    have := Nat.length_toDigits_pos (b := 10) (n := d.digits)
    omega
  rw [value, hlength, zpow_add₀ (by norm_num), zpow_natCast]
  exact mul_le_mul_of_nonneg_right hdigits (by positivity)

/-! ## Reading -/

section Reading

variable {d : Decimal} {m : ℕ} {e : ℤ}

/-- The first digit of a decimal in the window of a double stands within the range of doubles. -/
theorem leading_mem_of_roundsTo (hm : 0 < m) (hcanonical : Rounding.Canonical m e) (he : e ≤ 971)
    (hrounds : Rounding.RoundsTo d.value m e) :
    0 < d.digits ∧ -330 ≤ d.exponent + (Nat.toDigits 10 d.digits).length ∧
      d.exponent + (Nat.toDigits 10 d.digits).length ≤ 330 := by
  have hlow := hrounds.two_zpow_le hm hcanonical
  have hhigh := hrounds.lt_two_zpow hcanonical he
  have hsmallest : (10 : ℚ) ^ (-331 : ℤ) ≤ 2 ^ (-1075 : ℤ) := by
    have hpowers : 2 ^ 1075 ≤ 10 ^ 331 := by decide +kernel
    rw [zpow_neg, zpow_neg]
    apply inv_anti₀ (by positivity)
    exact_mod_cast hpowers
  have hlargest : (2 : ℚ) ^ (1024 : ℤ) ≤ 10 ^ (330 : ℤ) := by
    have hpowers : 2 ^ 1024 ≤ 10 ^ 330 := by decide +kernel
    exact_mod_cast hpowers
  have hd : 0 < d.digits := by
    apply Nat.pos_of_ne_zero
    intro hzero
    have hpos : (0 : ℚ) < 2 ^ (-1075 : ℤ) := zpow_pos two_pos _
    rw [value, hzero, Nat.cast_zero, zero_mul] at hlow
    exact absurd hlow (not_le.2 hpos)
  have hten : (1 : ℚ) < 10 := by norm_num
  have hfirst : (10 : ℚ) ^ (-331 : ℤ) < 10 ^ (d.exponent + (Nat.toDigits 10 d.digits).length) :=
    (hsmallest.trans hlow).trans_lt d.value_lt
  have hlast : (10 : ℚ) ^ (d.exponent + (Nat.toDigits 10 d.digits).length - 1) < 10 ^ (330 : ℤ) :=
    ((le_value hd).trans_lt hhigh).trans_le hlargest
  rw [zpow_lt_zpow_iff_right₀ hten] at hfirst hlast
  exact ⟨hd, by omega, by omega⟩

/-- A decimal in the window of a double is read as that double. -/
theorem toFloat_of_roundsTo (hm : 0 < m) (hcanonical : Rounding.Canonical m e) (he : e ≤ 971)
    (hrounds : Rounding.RoundsTo d.value m e) :
    d.toFloat.toModel = Float.Model.pack (.finite .positive m e hm) := by
  rcases leading_mem_of_roundsTo hm hcanonical he hrounds with ⟨hd, hlow, hhigh⟩
  have hsmall :
      (d.digits = 0 || d.exponent + (Nat.toDigits 10 d.digits).length < -330) = false := by
    simp
    omega
  unfold toFloat
  dsimp only
  rw [hsmall, if_neg (by decide), if_neg (by omega)]
  by_cases hexponent : 0 ≤ d.exponent
  · obtain ⟨k, hk⟩ := Int.eq_ofNat_of_zero_le hexponent
    rw [if_pos hexponent, hk, Int.toNat_natCast]
    apply Rounding.ofScientific_whole hm _ hcanonical
    · rw [value, hk, zpow_natCast] at hrounds
      exact_mod_cast hrounds
    · exact Nat.mul_pos hd (Nat.pow_pos (by decide))
  · obtain ⟨k, hk⟩ : ∃ k : ℕ, d.exponent = -k := ⟨(-d.exponent).toNat, by omega⟩
    rw [if_neg hexponent, hk, neg_neg, Int.toNat_natCast]
    apply Rounding.ofScientific_quotient hm hd _ hcanonical
    · rw [value, hk, zpow_neg, zpow_natCast, ← div_eq_mul_inv] at hrounds
      exact hrounds
    · omega

end Reading

end Decimal

end LeadScoring
