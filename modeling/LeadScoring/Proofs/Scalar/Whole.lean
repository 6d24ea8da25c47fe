import LeadScoring.Proofs.Scalar.Order
import LeadScoring.Proofs.Scalar.Scientific

/-!
# Sums of whole numbers

Doubles hold every whole number up to `2 ^ 53`.  A sum of two whole doubles that does not exceed
this is therefore exact, and so is a sum of many, whatever the order of its terms.

Main results:

- Theorem `Rounding.add_of_whole`: sums that are whole and small are not rounded.
- Theorem `Binary64.toRat_eq_value`: the exact value of a double.
- Definition `Binary64.IsWhole`: a double is a given whole number.
- Theorems `Binary64.IsWhole.add`, `Binary64.isWhole_ofNat`: small sums of whole doubles are exact, and
  small whole numbers are doubles.
-/

open Float.Model Float.Model.UnpackedFloat

namespace LeadScoring.Rounding

/-! ## Whole sums -/

/-- A small whole number is not rounded. -/
theorem normalize_of_whole {k t : ℤ} {n : ℕ} (hvalue : (k : ℚ) * 2 ^ t = n) (hn : n ≤ 2 ^ 53) :
    IsNumber (UnpackedFloat.normalize Format.binary64 k t .positive) ∧
      value (UnpackedFloat.normalize Format.binary64 k t .positive) = n := by
  have hunit : (0 : ℚ) < 2 ^ t := zpow_pos two_pos t
  rcases Nat.eq_zero_or_pos n with rfl | hpos
  · have hk : k = 0 := by
      rw [Nat.cast_zero, mul_eq_zero] at hvalue
      exact_mod_cast hvalue.resolve_right hunit.ne'
    rw [hk]
    exact ⟨trivial, Nat.cast_zero.symm⟩
  · have hk : 0 < k := by
      have hn_pos : (0 : ℚ) < n := by exact_mod_cast hpos
      rw [← hvalue] at hn_pos
      exact_mod_cast (mul_pos_iff_of_pos_right hunit).1 hn_pos
    obtain ⟨m, e, hcanonical, hfull, he, hparts⟩ := exists_canonical hpos hn
    have hm : 0 < m := by omega
    have hrounds : RoundsTo ((k.toNat : ℕ) * 2 ^ t) m e := by
      have hdigits : ((k.toNat : ℕ) : ℚ) * 2 ^ t = m * 2 ^ e := by
        rw [hparts, ← hvalue]
        congr 1
        exact_mod_cast Int.toNat_of_nonneg hk.le
      rw [hdigits]
      exact roundsTo_self m e
    have hround : UnpackedFloat.normalize Format.binary64 k t .positive =
        .finite .positive m e hm := by
      unfold UnpackedFloat.normalize
      rw [Int.compare_eq_gt.2 hk]
      exact round_of_roundsTo (by omega) hm hcanonical hrounds
    rw [hround]
    exact ⟨⟨hcanonical, by omega⟩, hparts⟩

/-- A sum that is a small whole number is not rounded. -/
theorem add_of_whole {u v : UnpackedFloat} (hu : IsNumber u) (hv : IsNumber v) {n : ℕ}
    (hvalue : value u + value v = n) (hn : n ≤ 2 ^ 53) :
    IsNumber (UnpackedFloat.add Format.binary64 u v) ∧
      value (UnpackedFloat.add Format.binary64 u v) = n := by
  match u, v with
  | .zero s, .zero s' =>
    have hzero : UnpackedFloat.add Format.binary64 (.zero s) (.zero s') = .zero s ∨
        UnpackedFloat.add Format.binary64 (.zero s) (.zero s') = .zero .positive := by
      cases s <;> cases s' <;> simp [UnpackedFloat.add]
    have hvalue_zero : (0 : ℚ) = n := (add_zero (0 : ℚ)).symm.trans hvalue
    rcases hzero with h | h <;> rw [h] <;> exact ⟨trivial, hvalue_zero⟩
  | .zero s, .finite s' m e hm => exact ⟨hv, (zero_add _).symm.trans hvalue⟩
  | .finite s m e hm, .zero s' => exact ⟨hu, (add_zero _).symm.trans hvalue⟩
  | .finite s m e hm, .finite s' m' e' hm' =>
    obtain ⟨k, t, hadd, hk⟩ := exists_add_eq_normalize s s' e e' hm hm'
    rw [hadd]
    exact normalize_of_whole (hk.trans hvalue) hn

end LeadScoring.Rounding

namespace LeadScoring.Binary64

variable {x y : Float}

/-- What is unpacked as a number is finite. -/
theorem isFinite_iff_isNumber : isFinite x = true ↔ Rounding.IsNumber x.toModel.unpack := by
  refine ⟨isNumber_of_isFinite, fun h => ?_⟩
  by_contra hfinite
  have hones : @unpackExponent Format.binary64 x.toModel.toBits.toBitVec = -1#11 := by
    apply BitVec.eq_of_toNat_eq
    rw [← exponentField_eq]
    simpa [isFinite] using hfinite
  unfold Float.Model.unpack UnpackedFloat.unpack at h
  dsimp only at h
  rw [if_pos hones] at h
  split_ifs at h
  · exact h
  · exact h

/-- The exact value of a finite double is its significand at its scale, with its sign. -/
theorem toRat_of_isFinite (h : isFinite x = true) :
    toRat x = ((sign x).apply (significand x) : ℤ) * (2 : ℚ) ^ scale x := by
  have hsign : (if isNegative x then -(significand x : ℤ) else significand x) =
      (sign x).apply (significand x) := by
    unfold sign
    split_ifs <;> rfl
  unfold toRat
  dsimp only
  rw [if_pos h, hsign]
  split_ifs with hscale
  · obtain ⟨k, hk⟩ := Int.eq_ofNat_of_zero_le hscale
    rw [hk, Int.toNat_natCast, Nat.one_shiftLeft, Rat.mkRat_one, zpow_natCast]
    push_cast
    rfl
  · obtain ⟨k, hk⟩ := Int.eq_ofNat_of_zero_le (show 0 ≤ -scale x by omega)
    have hscale_eq : scale x = -k := by omega
    rw [hk, hscale_eq, Int.toNat_natCast, Nat.one_shiftLeft, Rat.mkRat_eq_div, zpow_neg,
      zpow_natCast, div_eq_mul_inv]
    push_cast
    rfl

/-- The exact value of a finite double is that of its parts. -/
theorem toRat_eq_value (h : isFinite x = true) : toRat x = Rounding.value x.toModel.unpack := by
  rw [toRat_of_isFinite h]
  rcases unpack_of_isFinite h with ⟨hzero, hunpack⟩ | ⟨hm, hunpack⟩
  · rw [hunpack, hzero]
    cases sign x <;> simp [Sign.apply, Rounding.value]
  · rw [hunpack]
    rfl

/-! ## Whole numbers -/

/-- A double is a whole number. -/
structure IsWhole (x : Float) (n : ℕ) : Prop where
  finite : isFinite x = true
  toRat_eq : toRat x = n

instance (x : Float) (n : ℕ) : Decidable (IsWhole x n) :=
  decidable_of_iff (isFinite x = true ∧ toRat x = n) ⟨fun h => ⟨h.1, h.2⟩, fun h => ⟨h.1, h.2⟩⟩

theorem isWhole_iff {n : ℕ} : IsWhole x n ↔
    Rounding.IsNumber x.toModel.unpack ∧ Rounding.value x.toModel.unpack = n := by
  constructor
  · intro h
    exact ⟨isNumber_of_isFinite h.finite, (toRat_eq_value h.finite).symm.trans h.toRat_eq⟩
  · rintro ⟨hnumber, hvalue⟩
    have hfinite := isFinite_iff_isNumber.2 hnumber
    exact ⟨hfinite, (toRat_eq_value hfinite).trans hvalue⟩

theorem isWhole_zero : IsWhole 0.0 0 := by
  decide +kernel

/-- A sum of whole doubles up to `2 ^ 53` is exact. -/
theorem IsWhole.add {m n : ℕ} (hx : IsWhole x m) (hy : IsWhole y n) (hle : m + n ≤ 2 ^ 53) :
    IsWhole (x + y) (m + n) := by
  rw [isWhole_iff] at hx hy ⊢
  have hvalue : Rounding.value x.toModel.unpack + Rounding.value y.toModel.unpack =
      (m + n : ℕ) := by
    rw [hx.2, hy.2, Nat.cast_add]
  have hsum := Rounding.add_of_whole hx.1 hy.1 hvalue hle
  rw [unpack_add, Rounding.unpack_pack_of_isNumber hsum.1]
  exact hsum

/-- Whole numbers up to `2 ^ 53` are doubles. -/
theorem isWhole_ofNat {n : ℕ} (hn : n ≤ 2 ^ 53) : IsWhole (Float.ofNat n) n := by
  rcases Nat.eq_zero_or_pos n with rfl | hpos
  · decide +kernel
  · rcases Rounding.exists_canonical hpos hn with ⟨m, e, hcanonical, hfull, he, hvalue⟩
    have hm : 0 < m := by omega
    have hrounds : Rounding.RoundsTo n m e := hvalue ▸ Rounding.roundsTo_self m e
    have hmodel : (Float.ofNat n).toModel = Float.Model.pack (.finite .positive m e hm) :=
      Rounding.ofScientific_whole hm hpos hcanonical hrounds
    have hnumber : Rounding.IsNumber (.finite .positive m e hm) := ⟨hcanonical, by omega⟩
    have hunpack : (Float.ofNat n).toModel.unpack = .finite .positive m e hm := by
      rw [hmodel]
      exact Rounding.unpack_pack_of_isNumber hnumber
    rw [isWhole_iff, hunpack]
    exact ⟨hnumber, hvalue⟩

end LeadScoring.Binary64
