import LeadScoring.Proofs.Scalar.Nearest

/-!
# Doubles of decimal numerals

A whole number over a power of ten becomes a double in one of two ways.  Where both are doubles
themselves, one division of doubles does it; otherwise the quotient of the two whole numbers is
rounded.  Either way the result is the double in whose window the quotient lies.

Main results:

- Theorems `exists_canonical`, `unpack_toFloat`: small whole numbers are doubles.
- Theorem `exists_unpack_powerOfTen`: so are the powers of ten up to the twenty-second.
- Theorems `ofScientific_whole`, `ofScientific_quotient`: the double of a numeral.
-/

open Float.Model Float.Model.UnpackedFloat

namespace LeadScoring.Rounding

/-- The value of a double lies in its own window. -/
theorem roundsTo_self (m : ℕ) (e : ℤ) : RoundsTo (m * 2 ^ e) m e := by
  have hunit : (0 : ℚ) < 2 ^ e := zpow_pos two_pos e
  have hreach : 0 < lowerReach m e := by
    unfold lowerReach
    split_ifs <;> norm_num
  refine ⟨?_, ?_, fun _ => ⟨?_, ?_⟩⟩ <;> nlinarith

/-! ## Whole numbers and powers of ten -/

/-- Whole numbers up to `2 ^ 53` are values of doubles. -/
theorem exists_canonical {n : ℕ} (hn : 0 < n) (hle : n ≤ 2 ^ 53) :
    ∃ (m : ℕ) (e : ℤ), Canonical m e ∧ 2 ^ 52 ≤ m ∧ e ≤ 1 ∧ (m : ℚ) * 2 ^ e = n := by
  rcases Nat.lt_or_eq_of_le hle with hlt | rfl
  · have hlog := (Nat.log2_lt hn.ne').2 hlt
    obtain ⟨k, hk⟩ : ∃ k : ℕ, n.log2 + k = 52 := ⟨52 - n.log2, by omega⟩
    have hmlog : (n * 2 ^ k).log2 = 52 := by rw [log2_shift hn, hk]
    refine ⟨n * 2 ^ k, -k, ?_, ?_, by omega, ?_⟩
    · rw [canonical_iff, hmlog]
      omega
    · rw [← Nat.le_log2 (by positivity), hmlog]
    · push_cast
      rw [zpow_neg, zpow_natCast]
      field_simp
  · refine ⟨2 ^ 52, 1, ?_, le_refl _, le_refl _, by norm_num⟩
    rw [canonical_iff, Nat.log2_two_pow]
    omega

/-- A word becomes a double by rounding. -/
theorem unpack_toFloat_eq {n : ℕ} (hn : 0 < n) (hlt : n < 2 ^ 53) :
    n.toUInt64.toFloat.toModel.unpack = UnpackedFloat.unpack Format.binary64
      (UnpackedFloat.pack Format.binary64 (round Format.binary64 .positive n 0)) := by
  have hword : n.toUInt64.toNat = n := UInt64.toNat_ofNat_of_lt (hlt.trans (by decide))
  have hmodel : n.toUInt64.toFloat.toModel.unpack = UnpackedFloat.unpack Format.binary64
      (UnpackedFloat.pack Format.binary64
        (UnpackedFloat.normalize Format.binary64 (n.toUInt64.toNat : ℤ) 0 .positive)) :=
    rfl
  have hpositive : compare (n : ℤ) 0 = .gt := by
    rw [Int.compare_eq_gt]
    omega
  rw [hmodel, hword]
  unfold UnpackedFloat.normalize
  rw [hpositive]
  dsimp only
  rw [Int.toNat_natCast]

/-- Whole numbers below `2 ^ 53` are doubles. -/
theorem unpack_toFloat {n : ℕ} (hn : 0 < n) (hlt : n < 2 ^ 53) :
    ∃ (m : ℕ) (e : ℤ) (hm : 0 < m),
      n.toUInt64.toFloat.toModel.unpack = .finite .positive m e hm ∧ (m : ℚ) * 2 ^ e = n ∧
        2 ^ 52 ≤ m := by
  obtain ⟨m, e, hcanonical, hfull, he, hvalue⟩ := exists_canonical hn hlt.le
  have hm : 0 < m := by omega
  have hrounds : RoundsTo (n * 2 ^ (0 : ℤ)) m e := by
    rw [zpow_zero, mul_one, ← hvalue]
    exact roundsTo_self m e
  refine ⟨m, e, hm, ?_, hvalue, hfull⟩
  rw [unpack_toFloat_eq hn hlt, round_of_roundsTo hn hm hcanonical hrounds]
  exact unpack_pack_of_le hm hcanonical (by omega)

/-- Whether the parts of a double are those of a power of ten that is not below one. -/
def isPowerOfTen (k : ℕ) : UnpackedFloat → Bool
  | .finite .positive m e _ =>
    decide (2 ^ 52 ≤ m) && decide (-52 ≤ e) && m * 2 ^ (e + 52).toNat == 10 ^ k * 2 ^ 52
  | _ => false

/-- The table of exact powers of ten holds these powers. -/
theorem isPowerOfTen_unpack : ∀ k (_ : k < Float.exactlyRepresentablePowersOfTen.size),
    isPowerOfTen k Float.exactlyRepresentablePowersOfTen[k].toModel.unpack = true := by
  decide +kernel

/-- The powers of ten up to the twenty-second are doubles. -/
theorem exists_unpack_powerOfTen {k : ℕ} (hk : k < Float.exactlyRepresentablePowersOfTen.size) :
    ∃ (m : ℕ) (e : ℤ) (hm : 0 < m),
      Float.exactlyRepresentablePowersOfTen[k].toModel.unpack = .finite .positive m e hm ∧
        (m : ℚ) * 2 ^ e = 10 ^ k ∧ 2 ^ 52 ≤ m := by
  have hpower : isPowerOfTen k Float.exactlyRepresentablePowersOfTen[k].toModel.unpack = true :=
    isPowerOfTen_unpack k hk
  generalize Float.exactlyRepresentablePowersOfTen[k].toModel.unpack = u at hpower ⊢
  match u, hpower with
  | .finite .positive m e hm, hpower =>
    simp only [isPowerOfTen, Bool.and_eq_true, decide_eq_true_eq, beq_iff_eq] at hpower
    rcases hpower with ⟨⟨hfull, he⟩, hvalue⟩
    refine ⟨m, e, hm, rfl, ?_, hfull⟩
    obtain ⟨i, hi⟩ : ∃ i : ℕ, e + 52 = i := ⟨(e + 52).toNat, by omega⟩
    have hvalue' : (m : ℚ) * 2 ^ i = 10 ^ k * 2 ^ 52 := by
      rw [hi, Int.toNat_natCast] at hvalue
      exact_mod_cast hvalue
    obtain rfl : e = i - 52 := by omega
    rw [zpow_sub₀ two_ne_zero, zpow_natCast, ← mul_div_assoc, hvalue', mul_div_assoc]
    norm_num

/-! ## Numerals -/

/-- No double has a smaller number in its window. -/
theorem RoundsTo.two_zpow_le {v : ℚ} {m : ℕ} {e : ℤ} (h : RoundsTo v m e) (hm : 0 < m)
    (hcanonical : Canonical m e) : 2 ^ (-1075 : ℤ) ≤ v := by
  obtain ⟨-, hlow, -⟩ := canonical_iff.1 hcanonical
  have hreach : (1 : ℚ) / 2 ≤ m - lowerReach m e := by
    have hone : (1 : ℚ) ≤ m := by exact_mod_cast hm
    unfold lowerReach
    split_ifs <;> linarith
  calc
    (2 : ℚ) ^ (-1075 : ℤ) = 1 / 2 * 2 ^ (-1074 : ℤ) := by
      rw [one_div, ← zpow_neg_one, ← zpow_add₀ two_ne_zero]
      rfl
    _ ≤ 1 / 2 * 2 ^ e := by
      gcongr
      exact one_le_two
    _ ≤ (m - lowerReach m e) * 2 ^ e := by gcongr
    _ ≤ v := h.low

/-- No finite double has a larger number in its window. -/
theorem RoundsTo.lt_two_zpow {v : ℚ} {m : ℕ} {e : ℤ} (h : RoundsTo v m e)
    (hcanonical : Canonical m e) (he : e ≤ 971) : v < 2 ^ (1024 : ℤ) := by
  obtain ⟨hlog, -, -⟩ := canonical_iff.1 hcanonical
  have hm : (m : ℚ) + 1 ≤ 2 ^ 53 := by exact_mod_cast lt_two_pow_53 hlog
  calc
    v ≤ (m + 1 / 2) * 2 ^ e := h.high
    _ < 2 ^ 53 * 2 ^ e := by
      gcongr
      linarith
    _ ≤ 2 ^ 53 * 2 ^ (971 : ℤ) := by
      gcongr
      exact one_le_two
    _ = 2 ^ (1024 : ℤ) := by
      rw [← zpow_natCast, ← zpow_add₀ two_ne_zero]
      rfl

/-- A numeral in the window of a double has few places behind the point. -/
theorem le_log2_of_roundsTo {n k m : ℕ} {e : ℤ} (hm : 0 < m) (hcanonical : Canonical m e)
    (h : RoundsTo (n / 10 ^ k) m e) : k ≤ 1075 + n.log2 := by
  have hsmall := h.two_zpow_le hm hcanonical
  rw [le_div_iff₀ (by positivity)] at hsmall
  have hlt : (2 : ℚ) ^ (-1075 + k : ℤ) < 2 ^ (n.log2 + 1 : ℤ) := by
    calc
      (2 : ℚ) ^ (-1075 + k : ℤ) = 2 ^ (-1075 : ℤ) * 2 ^ k := by
        rw [zpow_add₀ two_ne_zero, zpow_natCast]
      _ ≤ 2 ^ (-1075 : ℤ) * 10 ^ k := by
        gcongr
        norm_num
      _ ≤ n := hsmall
      _ < 2 ^ (n.log2 + 1 : ℤ) := by exact_mod_cast Nat.lt_log2_self
  have hexponent := (zpow_lt_zpow_iff_right₀ one_lt_two).1 hlt
  omega

section Numerals

variable {n k m : ℕ} {e : ℤ} (hm : 0 < m)

/-- A small whole number is multiplied by the double of one. -/
theorem ofScientific_of_small (hn : 0 < n) (hlt : n < 2 ^ 53) (hcanonical : Canonical m e)
    (hrounds : RoundsTo n m e) :
    (n.toUInt64.toFloat * Float.exactlyRepresentablePowersOfTen[0]).toModel =
      Float.Model.pack (.finite .positive m e hm) := by
  have hindex : 0 < Float.exactlyRepresentablePowersOfTen.size := by decide
  rcases unpack_toFloat hn hlt with ⟨m₁, e₁, hm₁, hunpack₁, hvalue₁, hfull₁⟩
  rcases exists_unpack_powerOfTen hindex with ⟨m₂, e₂, hm₂, hunpack₂, hvalue₂, -⟩
  have hproduct : ∀ x y : Float, (x * y).toModel = Float.Model.pack
      (mul Format.binary64 x.toModel.unpack y.toModel.unpack) :=
    fun _ _ => rfl
  rw [hproduct, hunpack₁, hunpack₂]
  congr 1
  refine mul_of_roundsTo hm hm₁ hm₂ hcanonical ?_ ?_
  · have hle : 2 ^ 52 ≤ m₁ * m₂ := hfull₁.trans (Nat.le_mul_of_pos_right m₁ hm₂)
    exact_mod_cast hle
  · have hvalue : ((m₁ * m₂ : ℕ) : ℚ) * 2 ^ (e₁ + e₂) = n := by
      rw [← hvalue₁, zpow_add₀ two_ne_zero]
      push_cast
      linear_combination (m₁ : ℚ) * 2 ^ e₁ * hvalue₂
    rw [hvalue]
    exact hrounds

/-- A large whole number is rounded with more digits than a double has. -/
theorem ofScientific_of_large (hn : 0 < n) (hcanonical : Canonical m e)
    (hrounds : RoundsTo n m e) :
    UnpackedFloat.ofScientific Format.binary64 n 0 = .finite .positive m e hm := by
  have hunit : ((n <<< Format.binary64.mantissaBits * 10 ^ (0 : ℤ).toNat : ℕ) : ℚ) =
      n * 2 ^ 53 := by
    rw [Nat.shiftLeft_eq]
    push_cast
    norm_num [Format.mantissaBits]
  rw [UnpackedFloat.ofScientific, dif_neg hn.ne', if_neg (by decide), if_neg (by simp),
    if_pos le_rfl]
  refine mul_of_roundsTo hm _ _ hcanonical ?_ ?_
  · rw [hunit]
    have hn' : (1 : ℚ) ≤ n := by exact_mod_cast hn
    linarith
  · have hvalue : ((n : ℚ) * 2 ^ 53) * 2 ^ (-(Format.binary64.mantissaBits : ℤ) + 0) = n := by
      have hbits : (2 : ℚ) ^ (-(Format.binary64.mantissaBits : ℤ) + 0) = 2 ^ (-53 : ℤ) := rfl
      rw [hbits, mul_assoc]
      norm_num
    rw [hunit, hvalue]
    exact hrounds

/-- A whole number becomes the double in whose window it lies. -/
theorem ofScientific_whole (hn : 0 < n) (hcanonical : Canonical m e) (hrounds : RoundsTo n m e) :
    (Float.ofScientific n false 0).toModel =
      Float.Model.pack (.finite .positive m e hm) := by
  rw [Float.ofScientific]
  by_cases hsmall : n < 2 ^ 53 ∧ 0 ≤ 22
  · rw [dif_pos hsmall]
    exact ofScientific_of_small hm hn hsmall.1 hcanonical hrounds
  · rw [dif_neg hsmall]
    exact congrArg Float.Model.pack (ofScientific_of_large hm hn hcanonical hrounds)

/-- A quotient by a power of ten becomes the double in whose window it lies. -/
theorem ofScientific_quotient (hn : 0 < n) (hk : 0 < k) (hcanonical : Canonical m e)
    (hrounds : RoundsTo (n / 10 ^ k) m e) :
    (Float.ofScientific n true k).toModel = Float.Model.pack (.finite .positive m e hm) := by
  rw [Float.ofScientific]
  by_cases hsmall : n < 2 ^ 53 ∧ k ≤ 22
  · have hindex : k < Float.exactlyRepresentablePowersOfTen.size := Nat.lt_succ_of_le hsmall.2
    rcases unpack_toFloat hn hsmall.1 with ⟨m₁, e₁, hm₁, hunpack₁, hvalue₁, -⟩
    rcases exists_unpack_powerOfTen hindex with ⟨m₂, e₂, hm₂, hunpack₂, hvalue₂, -⟩
    have hquotient : ∀ x y : Float, (x / y).toModel = Float.Model.pack
        (div Format.binary64 x.toModel.unpack y.toModel.unpack) :=
      fun _ _ => rfl
    rw [dif_pos hsmall]
    dsimp only
    rw [if_pos rfl, hquotient, hunpack₁, hunpack₂]
    rw [← hvalue₁, ← hvalue₂] at hrounds
    rw [div_of_roundsTo hm hm₁ hm₂ hcanonical hrounds]
  · have hexponent : (Int.negOfNat k : ℤ) = -k := Int.negOfNat_eq
    have hsafe : ¬ -(k : ℤ) < -(2 ^ Format.binary64.exponentBits + n.log2 : ℤ) := by
      have hle := le_log2_of_roundsTo hm hcanonical hrounds
      norm_num
      omega
    rw [dif_neg hsmall]
    change Float.Model.pack (UnpackedFloat.ofScientific Format.binary64 n (Int.negOfNat k)) = _
    congr 1
    rw [hexponent, UnpackedFloat.ofScientific, dif_neg hn.ne', if_neg (by simp),
      if_neg hsafe, if_neg (by omega)]
    apply div_of_roundsTo hm _ _ hcanonical
    simpa using hrounds

end Numerals

end LeadScoring.Rounding
