import LeadScoring.Proofs.Scalar.Whole

/-!
# Sums that stand still

A double does not grow any more when what is added to it is less than half of its last digit.  So a
sum of small terms stays below a power of two, however many terms it has: counting up by one does
not lead above `2 ^ 54`, and adding such counts does not lead above `2 ^ 108`.

Main results:

- Definition `Binary64.UpTo`: doubles from zero to a power of two.
- Theorem `Binary64.UpTo.add`: adding what is smaller by 54 binary digits does not leave them.
- Theorem `Binary64.UpTo.isCount`: they are finite and not negative.
-/

open Float.Model Float.Model.UnpackedFloat

namespace LeadScoring.Rounding

/-- Zero, or a positive magnitude that is not above `2 ^ (52 + k)`. -/
def UpTo (k : ℤ) : UnpackedFloat → Prop
  | .zero _ => True
  | .finite .positive m e _ => Canonical m e ∧ AtMost m e (2 ^ 52) k
  | _ => False

/-- The powers of two from the smallest normal one on are canonical. -/
theorem canonical_two_pow {k : ℤ} (hk : -1074 ≤ k) : Canonical (2 ^ 52) k := by
  rw [canonical_iff, Nat.log2_two_pow]
  omega

namespace UpTo

variable {k l : ℤ} {u v : UnpackedFloat}

theorem nonneg (h : UpTo k u) : Nonneg u := by
  match u, h with
  | .zero s, _ => trivial
  | .finite .positive m e hm, _ => rfl

theorem isNumber (h : UpTo k u) (hk : k ≤ 971) : IsNumber u := by
  match u, h with
  | .zero s, _ => trivial
  | .finite .positive m e hm, h =>
    refine ⟨h.1, ?_⟩
    have hatMost := h.2
    unfold AtMost at hatMost
    omega

theorem mono (h : UpTo k u) (hkl : k ≤ l) : UpTo l u := by
  match u, h with
  | .zero s, _ => trivial
  | .finite .positive m e hm, h =>
    refine ⟨h.1, ?_⟩
    have hatMost := h.2
    unfold AtMost at hatMost ⊢
    omega

/-- The bound in exact numbers. -/
theorem value_le (h : UpTo k u) : value u ≤ 2 ^ 52 * 2 ^ k := by
  match u, h with
  | .zero s, _ => exact (mul_pos (by norm_num) (zpow_pos two_pos k)).le
  | .finite .positive m e hm, ⟨hcanonical, hatMost⟩ =>
    change (m : ℚ) * 2 ^ e ≤ 2 ^ 52 * 2 ^ k
    rcases hatMost with hlt | ⟨rfl, hle⟩
    · have hdigits : (m : ℚ) ≤ 2 ^ 53 := by
        exact_mod_cast (lt_two_pow_53 (canonical_iff.1 hcanonical).1).le
      calc
        (m : ℚ) * 2 ^ e ≤ 2 ^ 53 * 2 ^ e := by gcongr
        _ = 2 ^ 52 * 2 ^ (e + 1) := by
          rw [zpow_add_one₀ two_ne_zero]
          ring
        _ ≤ 2 ^ 52 * 2 ^ k := by
          gcongr
          · exact one_le_two
          · exact hlt
    · have hdigits : (m : ℚ) ≤ 2 ^ 52 := by exact_mod_cast hle
      gcongr

/-- A magnitude that exceeds the bound by less than half a unit is rounded down to it. -/
theorem of_round {n : ℕ} (hn : 0 < n) {f : ℤ} (hk : -1074 ≤ k)
    (hlt : (n : ℚ) * 2 ^ f < (2 ^ 52 + 1 / 2) * 2 ^ k) :
    UpTo k (round Format.binary64 .positive n f) := by
  rcases round_cases hn f with hzero | ⟨r, g, hr, hround, hcanonical, hatMost⟩
  · rw [hzero]
    trivial
  · rw [hround]
    exact ⟨hcanonical, hatMost (canonical_two_pow hk) (by exact_mod_cast hlt)⟩

/-- Adding what is smaller by 54 binary digits does not lead above the bound. -/
theorem add (hu : UpTo k u) (hv : UpTo (k - 54) v) (hk : -1074 ≤ k) :
    UpTo k (UnpackedFloat.add Format.binary64 u v) := by
  match u, v with
  | .zero s, .zero s' => cases s <;> cases s' <;> trivial
  | .zero s, .finite .positive n f hn => exact hv.mono (by omega)
  | .finite .positive m e hm, .zero s => exact hu
  | .finite .positive m e hm, .finite .positive n f hn =>
    obtain ⟨d, t, hadd, hvalue⟩ := exists_add_eq_normalize .positive .positive e f hm hn
    have hunit : (0 : ℚ) < 2 ^ t := zpow_pos two_pos t
    have hpos : 0 < d := by
      have hterms : (0 : ℚ) < m * 2 ^ e + n * 2 ^ f := by positivity
      have hsum : (0 : ℚ) < d * 2 ^ t := hvalue ▸ hterms
      exact_mod_cast (mul_pos_iff_of_pos_right hunit).1 hsum
    have hlt : (d : ℚ) * 2 ^ t < (2 ^ 52 + 1 / 2) * 2 ^ k := by
      have hbig := hu.value_le
      have hsmall := hv.value_le
      rw [zpow_sub₀ two_ne_zero] at hsmall
      have htop : (0 : ℚ) < 2 ^ k := zpow_pos two_pos k
      rw [hvalue]
      norm_num at hsmall ⊢
      linarith
    obtain ⟨n, rfl⟩ : ∃ n : ℕ, d = n := ⟨d.toNat, by omega⟩
    rw [hadd]
    unfold UnpackedFloat.normalize
    rw [Int.compare_eq_gt.2 hpos]
    exact of_round (by omega) hk (by exact_mod_cast hlt)

end UpTo

end LeadScoring.Rounding

/-! ## Doubles -/

namespace LeadScoring.Binary64

/-- A double from zero to `2 ^ (52 + k)`. -/
def UpTo (k : ℤ) (x : Float) : Prop :=
  Rounding.UpTo k x.toModel.unpack

theorem upTo_zero (k : ℤ) : UpTo k 0.0 :=
  trivial

/-- One has all its binary digits behind the point. -/
theorem upTo_one : UpTo (-52) 1.0 := by
  have hone : (1.0 : Float).toModel.unpack = .finite .positive (2 ^ 52) (-52) (by decide) := by
    rfl
  rw [UpTo, hone]
  exact ⟨Rounding.canonical_two_pow (by omega), Or.inr ⟨rfl, le_refl _⟩⟩

namespace UpTo

variable {k : ℤ} {x y : Float}

/-- Adding what is smaller by 54 binary digits does not lead above the bound. -/
theorem add (hx : UpTo k x) (hy : UpTo (k - 54) y) (hlow : -1074 ≤ k) (hhigh : k ≤ 971) :
    UpTo k (x + y) := by
  have hsum := Rounding.UpTo.add hx hy hlow
  rw [UpTo, unpack_add, Rounding.unpack_pack_of_isNumber (hsum.isNumber hhigh)]
  exact hsum

/-- What is bounded is finite and not negative. -/
theorem isCount (hx : UpTo k x) (hhigh : k ≤ 971) : ClassCounts.isCount x = true := by
  have hfinite : isFinite x = true :=
    isFinite_iff_isNumber.2 (Rounding.UpTo.isNumber hx hhigh)
  have hnonneg : (0.0 : Float) ≤ x := nonneg_iff.2 (Rounding.UpTo.nonneg hx)
  exact Bool.and_eq_true_iff.2 ⟨hfinite, decide_eq_true hnonneg⟩

end UpTo

end LeadScoring.Binary64
