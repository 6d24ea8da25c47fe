import LeadScoring.Proofs.Scalar.Exact
import LeadScoring.Proofs.Scalar.Rounding
import LeadScoring.Tree.Basic

/-!
# Shares of class counts

The answer of a leaf is the share of its positive rows.  A scorer refuses answers outside the unit
interval, so every arithmetic that models are compiled with has to keep shares of valid counts
inside it.  Doubles do, in spite of rounding and overflow; rational numbers do.

Main results:

- Class `SharesInUnit`: shares of valid counts lie between zero and one.
- The instances for `Float` and `Rat`.
-/

open Float.Model Float.Model.UnpackedFloat

namespace LeadScoring

/-- Arithmetic in which the share of positive rows lies between zero and one. -/
class SharesInUnit (α : Type) [Scalar α] : Prop where
  rate_mem_unit : ∀ c : ClassCounts α, c.isValid = true → 0 ≤ c.rate ∧ c.rate ≤ 1

/-! ## Doubles -/

namespace Binary64

theorem le_iff (x y : Float) : x ≤ y ↔ x.toModel.unpack.le y.toModel.unpack = true :=
  decide_eq_true_iff

theorem lt_iff (x y : Float) : x < y ↔ x.toModel.unpack.lt y.toModel.unpack = true :=
  decide_eq_true_iff

/-- The stored exponent of a double is read off its word by division. -/
theorem exponentField_eq (x : Float) :
    exponentField x =
      (@unpackExponent Format.binary64 x.toModel.toBits.toBitVec).toNat := by
  have hextract : (@unpackExponent Format.binary64 x.toModel.toBits.toBitVec).toNat =
      x.toModel.toBits.toBitVec.toNat >>> 52 % 2 ^ 11 := by
    simp [unpackExponent, BitVec.extractLsb_toNat]
  rw [hextract, exponentField, magnitudeBits, Nat.shiftRight_eq_div_pow]
  change x.toBits.toNat % 2 ^ 63 / 2 ^ 52 = x.toBits.toNat / 2 ^ 52 % 2 ^ 11
  omega

/-- A count is a zero of either sign or a positive magnitude. -/
theorem unpack_of_isCount {x : Float} (h : ClassCounts.isCount x = true) :
    (∃ s, x.toModel.unpack = .zero s) ∨
      ∃ (m : Nat) (e : Int) (hm : 0 < m), x.toModel.unpack = .finite .positive m e hm ∧
        Rounding.Canonical m e := by
  simp only [ClassCounts.isCount, Bool.and_eq_true, decide_eq_true_eq] at h
  obtain ⟨hfinite, hnonneg⟩ := h
  have hexponent : exponentField x ≠ 2047 := by simpa [Scalar.isFinite, isFinite] using hfinite
  rw [exponentField_eq] at hexponent
  have hle : (UnpackedFloat.zero .positive).le x.toModel.unpack = true := (le_iff 0.0 x).1 hnonneg
  cases hunpack : x.toModel.unpack with
  | notANumber =>
    rw [hunpack] at hle
    cases hle
  | infinity s =>
    exfalso
    apply hexponent
    unfold Float.Model.unpack UnpackedFloat.unpack at hunpack
    dsimp only at hunpack
    split_ifs at hunpack with hones
    rw [hones]
    rfl
  | zero s => exact Or.inl ⟨s, rfl⟩
  | finite s m e hm =>
    cases s with
    | negative =>
      rw [hunpack] at hle
      cases hle
    | positive => exact Or.inr ⟨m, e, hm, rfl, Rounding.canonical_of_unpack hunpack⟩

/-- A sum of doubles is the rounded sum of their parts, packed and unpacked again. -/
theorem unpack_add (x y : Float) :
    (x + y).toModel.unpack = UnpackedFloat.unpack Format.binary64
      (UnpackedFloat.pack Format.binary64
        (UnpackedFloat.add Format.binary64 x.toModel.unpack y.toModel.unpack)) :=
  rfl

/-- A quotient of doubles is the rounded quotient of their parts, packed and unpacked again. -/
theorem unpack_div (x y : Float) :
    (x / y).toModel.unpack = UnpackedFloat.unpack Format.binary64
      (UnpackedFloat.pack Format.binary64
        (UnpackedFloat.div Format.binary64 x.toModel.unpack y.toModel.unpack)) :=
  rfl

/-- What is unpacked as at most one lies between zero and one. -/
theorem mem_unit_of_atMostOne {x : Float} (h : Rounding.AtMostOne x.toModel.unpack) :
    (0.0 : Float) ≤ x ∧ x ≤ (1.0 : Float) := by
  rw [le_iff, le_iff]
  change (UnpackedFloat.zero .positive).le x.toModel.unpack = true ∧
    x.toModel.unpack.le (.finite .positive (2 ^ 52) (-52) (by decide)) = true
  match hunpack : x.toModel.unpack, h with
  | .zero s, _ => cases s <;> exact ⟨rfl, rfl⟩
  | .finite .positive m e hm, h =>
    exact ⟨rfl, Rounding.le_positive_iff.2 h⟩

/-- The quotient of a zero by whatever is positive is at most one. -/
theorem atMostOne_zero_div {s : Sign} {total : UnpackedFloat}
    (h : (UnpackedFloat.zero .positive).lt total = true) :
    Rounding.AtMostOne (UnpackedFloat.div Format.binary64 (.zero s) total) := by
  cases total with
  | notANumber => cases h
  | infinity s' => trivial
  | zero s' => cases s' <;> cases h
  | finite s' m e hm => trivial

/-- A sum with a positive count is infinite or at least as large as this count. -/
theorem unpack_add_positive {x y : Float} {m : Nat} {e : Int} {hm : 0 < m}
    (hx : ClassCounts.isCount x = true) (hy : y.toModel.unpack = .finite .positive m e hm)
    (hcanonical : Rounding.Canonical m e) :
    (x + y).toModel.unpack = .infinity .positive ∨
      ∃ (r : Nat) (g : Int) (hr : 0 < r), (x + y).toModel.unpack = .finite .positive r g hr ∧
        Rounding.Canonical r g ∧ Rounding.AtMost m e r g := by
  rw [unpack_add, hy]
  rcases unpack_of_isCount hx with ⟨s, hzero⟩ | ⟨n, f, hn, hpositive, -⟩
  · rw [hzero]
    change UnpackedFloat.unpack _ (UnpackedFloat.pack _ (.finite .positive m e hm)) = _ ∨ _
    rcases Rounding.unpack_pack (s := .positive) hm hcanonical with h | h
    · exact Or.inr ⟨m, e, hm, h, hcanonical, Or.inr ⟨rfl, le_refl m⟩⟩
    · exact Or.inl h
  · obtain ⟨r, g, hr, hsum, hsum_canonical, hle⟩ :=
      Rounding.le_add (f := f) hm hn hcanonical
    rw [hpositive, hsum]
    rcases Rounding.unpack_pack (s := .positive) hr hsum_canonical with h | h
    · exact Or.inr ⟨r, g, hr, h, hsum_canonical, hle⟩
    · exact Or.inl h

end Binary64

/-- Rounding keeps shares between zero and one: a sum of counts is not below either of them, and
where it overflows the share is zero. -/
instance : SharesInUnit Float where
  rate_mem_unit c h := by
    simp only [ClassCounts.isValid, Bool.and_eq_true] at h
    obtain ⟨hnegative, hpositive⟩ := h
    unfold ClassCounts.rate
    split
    · rename_i htotal
      apply Binary64.mem_unit_of_atMostOne
      change Rounding.AtMostOne (c.positive / c.total).toModel.unpack
      rw [Binary64.unpack_div]
      apply Rounding.atMostOne_pack
      rcases Binary64.unpack_of_isCount hpositive with ⟨s, hzero⟩ | ⟨m, e, hm, hfinite, hcanonical⟩
      · rw [hzero]
        exact Binary64.atMostOne_zero_div ((Binary64.lt_iff 0.0 c.total).1 htotal)
      · rcases Binary64.unpack_add_positive hnegative hfinite hcanonical with
          hinf | ⟨r, g, hr, hsum, hsum_canonical, hle⟩
        · rw [hfinite]
          change Rounding.AtMostOne (UnpackedFloat.div _ _ (c.negative + c.positive).toModel.unpack)
          rw [hinf]
          trivial
        · rw [hfinite]
          change Rounding.AtMostOne (UnpackedFloat.div _ _ (c.negative + c.positive).toModel.unpack)
          rw [hsum]
          exact Rounding.div_atMostOne hm hr hcanonical hsum_canonical hle
    · exact ⟨by decide, by decide⟩

/-! ## Rational numbers -/

instance : SharesInUnit ℚ where
  rate_mem_unit c h := by
    simp only [ClassCounts.isValid, ClassCounts.isCount, Bool.and_eq_true, decide_eq_true_eq] at h
    obtain ⟨⟨-, hnegative⟩, -, hpositive⟩ := h
    unfold ClassCounts.rate
    split
    · rename_i htotal
      simp only [ClassCounts.total, Exact.zero_eq, Exact.one_eq] at *
      refine ⟨div_nonneg hpositive htotal.le, (div_le_one htotal).2 ?_⟩
      linarith
    · simp only [Exact.zero_eq, Exact.one_eq]
      norm_num

end LeadScoring
