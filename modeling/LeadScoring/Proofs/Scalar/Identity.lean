import LeadScoring.Proofs.Scalar.Errors

/-!
# Doubles that are told apart

Two doubles with one place in the total order are the same, and so are two positive ones with the
same exact value.

Main results:

- Theorem `Binary64.eq_of_orderKey_eq`: the total order tells any two doubles apart.
- Theorem `Binary64.eq_of_toRat_eq`: exact values tell positive doubles apart.
- Theorem `Binary64.IsWhole.eq`: a positive whole number is one double.
- Theorem `Binary64.Near.eq_one`: what is rounded from one is one.
- Theorems `Binary64.div_self_of_pos`, `Binary64.zero_div_of_pos`: quotients that are not rounded.
-/

open Float.Model Float.Model.UnpackedFloat

namespace LeadScoring.Rounding

/-- Positive numbers with the same value are the same. -/
theorem eq_of_value_eq {u v : UnpackedFloat} (hu : IsNumber u) (hv : IsNumber v)
    (hpos : 0 < value u) (h : value u = value v) : u = v := by
  rcases magnitude_cases hu hpos.le with ⟨s, rfl⟩ | ⟨m, e, hm, rfl, hmcanonical, hmvalue⟩
  · exact absurd hpos (lt_irrefl 0)
  · rcases magnitude_cases hv (h ▸ hpos.le) with ⟨s, rfl⟩ | ⟨n, f, hn, rfl, hncanonical, hnvalue⟩
    · exact absurd (h ▸ hpos) (lt_irrefl 0)
    · have hsame : (m : ℚ) * 2 ^ e = n * 2 ^ f := hmvalue.symm.trans (h.trans hnvalue)
      have hle := (atMost_iff_value_le hmcanonical hncanonical).2 hsame.le
      have hge := (atMost_iff_value_le hncanonical hmcanonical).2 hsame.ge
      unfold AtMost at hle hge
      obtain ⟨rfl, rfl⟩ : m = n ∧ e = f := by omega
      rfl

/-- One is the only number that is as near to one as rounding leaves it. -/
theorem Near.value_eq_one {u : UnpackedFloat} (h : Near u 1) : value u = 1 := by
  refine le_antisymm h.le_one ?_
  obtain ⟨hlow, -⟩ := abs_le.1 h.error
  rcases magnitude_cases h.isNumber h.nonneg with ⟨s, rfl⟩ | ⟨m, e, hm, rfl, hcanonical, hvalue⟩
  · have hzero : value (.zero s) = 0 := rfl
    rw [hzero] at hlow
    norm_num at hlow
  · rw [hvalue] at hlow ⊢
    obtain ⟨hlog, -, hform⟩ := canonical_iff.1 hcanonical
    rcases le_or_gt (-52) e with he | he
    · have hfull : (2 : ℚ) ^ 52 ≤ m := by
        exact_mod_cast (Nat.le_log2 hm.ne').1 (hform.resolve_right (by omega)).ge
      calc
        (1 : ℚ) = 2 ^ 52 * 2 ^ (-52 : ℤ) := by norm_num
        _ ≤ m * 2 ^ e :=
          mul_le_mul hfull (zpow_le_zpow_right₀ one_le_two he) (by positivity) (by positivity)
    · -- The greatest number below one is twice as far away.
      have hdigits : (m : ℚ) ≤ 2 ^ 53 - 1 := by
        have hlt := lt_two_pow_53 hlog
        exact_mod_cast (by omega : (m : ℤ) ≤ 2 ^ 53 - 1)
      have hbelow : (m : ℚ) * 2 ^ e ≤ (2 ^ 53 - 1) * 2 ^ (-53 : ℤ) :=
        mul_le_mul hdigits (zpow_le_zpow_right₀ one_le_two (by omega)) (by positivity)
          (by norm_num)
      norm_num at hlow hbelow
      linarith

end LeadScoring.Rounding

namespace LeadScoring.Binary64

variable {x y : Float}

/-- The total order tells any two doubles apart. -/
theorem eq_of_orderKey_eq (h : orderKey x = orderKey y) : x = y := by
  have hwords : x.toBits.toNat = y.toBits.toNat := by
    have hx := x.toBits.toBitVec.isLt
    have hy := y.toBits.toBitVec.isLt
    change x.toBits.toNat < 2 ^ 64 at hx
    change y.toBits.toNat < 2 ^ 64 at hy
    unfold orderKey isNegative magnitudeBits at h
    simp only [Nat.one_shiftLeft, beq_iff_eq] at h
    split_ifs at h <;> omega
  have hbits : x.toModel.toBits = y.toModel.toBits := UInt64.toNat_inj.1 hwords
  apply eq_of_toModel_eq
  rw [Float.Model.mk.injEq]
  exact hbits

/-- Exact values tell positive doubles apart. -/
theorem eq_of_toRat_eq (hx : isFinite x = true) (hy : isFinite y = true) (hpos : 0 < toRat x)
    (h : toRat x = toRat y) : x = y := by
  rw [toRat_eq_value hx] at hpos h
  rw [toRat_eq_value hy] at h
  have hunpack := Rounding.eq_of_value_eq (isNumber_of_isFinite hx) (isNumber_of_isFinite hy) hpos h
  apply eq_of_toModel_eq
  rw [← pack_unpack_toModel hx, ← pack_unpack_toModel hy, hunpack]

/-- A positive whole number is one double. -/
theorem IsWhole.eq {n : ℕ} (hx : IsWhole x n) (hy : IsWhole y n) (hn : 0 < n) : x = y := by
  refine eq_of_toRat_eq hx.finite hy.finite ?_ (hx.toRat_eq.trans hy.toRat_eq.symm)
  rw [hx.toRat_eq]
  exact_mod_cast hn

theorem toRat_one : toRat 1.0 = 1 := by
  decide +kernel

/-- One is the only double that is as near to one as rounding leaves it. -/
theorem Near.eq_one (h : Near x 1) : x = 1.0 := by
  have hvalue : toRat x = 1 := by
    have hnear : Rounding.Near x.toModel.unpack 1 := by
      refine ⟨isNumber_of_isFinite h.isFinite, ?_, ?_, ?_⟩ <;> rw [← toRat_eq_value h.isFinite]
      · exact h.nonneg
      · exact h.le_one
      · exact h.error
    rw [toRat_eq_value h.isFinite, hnear.value_eq_one]
  refine eq_of_toRat_eq h.isFinite (by decide) ?_ (hvalue.trans toRat_one.symm)
  rw [hvalue]
  exact one_pos

/-- A positive number is the whole of itself. -/
theorem div_self_of_pos (hx : isFinite x = true) (hpos : 0 < toRat x) : x / x = 1.0 := by
  have hnear := near_div hx hx hpos.le le_rfl hpos
  rw [div_self hpos.ne'] at hnear
  exact hnear.eq_one

/-- Nothing is no part of a positive number. -/
theorem zero_div_of_pos (hx : isFinite x = true) (hpos : 0 < toRat x) :
    (0.0 : Float) / x = 0.0 := by
  rw [toRat_eq_value hx] at hpos
  rcases Rounding.magnitude_cases (isNumber_of_isFinite hx) hpos.le with
    ⟨s, hunpack⟩ | ⟨m, e, hm, hunpack, -⟩
  · rw [hunpack] at hpos
    exact absurd hpos (lt_irrefl 0)
  · have hquotient : ((0.0 : Float) / x).toModel =
        Float.Model.pack
          (UnpackedFloat.div Format.binary64 (0.0 : Float).toModel.unpack x.toModel.unpack) := rfl
    apply eq_of_toModel_eq
    rw [hquotient, hunpack]
    rfl

end LeadScoring.Binary64
