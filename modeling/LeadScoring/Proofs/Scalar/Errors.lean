import LeadScoring.Proofs.Scalar.Comparison

/-!
# Rounding errors up to one

Doubles below one are at most `2 ^ -53` apart.  A quotient, a product or a difference that lies
between zero and one is therefore rounded to a double between zero and one, and by `2 ^ -54` at most.

Main results:

- Definition `Rounding.Near`: a number between zero and one, rounded from another one.
- Theorem `Rounding.near_carried`: what a number up to one is rounded to.
- Theorems `Rounding.near_div`, `Rounding.near_mul`, `Rounding.near_sub`: operations of which the
  exact result lies between zero and one.
- Theorems `Binary64.near_div`, `Binary64.near_mul`, `Binary64.near_sub`: the same for doubles.
-/

open Float.Model Float.Model.UnpackedFloat

namespace LeadScoring.Rounding

/-- A number between zero and one that is as close to an exact one as rounding leaves it. -/
structure Near (u : UnpackedFloat) (v : ℚ) : Prop where
  isNumber : IsNumber u
  nonneg : 0 ≤ value u
  le_one : value u ≤ 1
  error : |value u - v| ≤ 1 / 2 ^ 54

/-- A number is near its own value. -/
theorem Near.self {u : UnpackedFloat} (hu : IsNumber u) (hlow : 0 ≤ value u) (hhigh : value u ≤ 1) :
    Near u (value u) where
  isNumber := hu
  nonneg := hlow
  le_one := hhigh
  error := by
    rw [sub_self, abs_zero]
    positivity

/-- A zero is near zero. -/
theorem near_zero (s : Sign) : Near (.zero s) 0 :=
  .self trivial (le_refl 0) zero_le_one

/-! ## Rounding -/

/-- The last carry does not change a value. -/
theorem value_carried {r : ℕ} {g : ℤ} (hr : r ≤ 2 ^ 53) (hfull : g = -1074 ∨ 2 ^ 52 ≤ r)
    (hlow : -1074 ≤ g) (hhigh : g ≤ 970) :
    IsNumber (carried r g) ∧ value (carried r g) = r * 2 ^ g := by
  rcases Nat.eq_zero_or_pos r with rfl | hpos
  · have hzero : carried 0 g = .zero .positive := by simp [carried]
    rw [hzero]
    exact ⟨trivial, by simp [value]⟩
  · rcases Nat.lt_or_eq_of_le hr with hlt | rfl
    · have hlog : r.log2 < 53 := (Nat.log2_lt hpos.ne').2 hlt
      rw [carried_of_lt hpos (by omega) hlow]
      refine ⟨⟨?_, by omega⟩, rfl⟩
      rw [canonical_iff, ← Nat.le_log2 hpos.ne'] at *
      omega
    · rw [carried_two_pow hlow]
      refine ⟨⟨?_, by omega⟩, ?_⟩
      · rw [canonical_iff, Nat.log2_two_pow]
        omega
      · simp only [value, Sign.apply, zpow_add_one₀ (two_ne_zero : (2 : ℚ) ≠ 0)]
        push_cast
        ring

/-- A number up to one is rounded to one up to one, by half of the smallest gap there at most. -/
theorem near_carried {v : ℚ} {g : ℤ} {r : ℕ} (hfits : FitsAt v g) (hnearest : Nearest (v / 2 ^ g) r)
    (hv : v ≤ 1) : Near (carried r g) v := by
  have hunit : (0 : ℚ) < 2 ^ g := zpow_pos two_pos g
  have hg : g ≤ -52 := by
    rcases hfits.full with hg | hfull
    · omega
    · have hle : (2 : ℚ) ^ (52 + g) ≤ 2 ^ (0 : ℤ) := by
        rw [zpow_add₀ two_ne_zero, zpow_zero]
        exact hfull.trans hv
      have hexponent := (zpow_le_zpow_iff_right₀ one_lt_two).1 hle
      omega
  obtain ⟨hnumber, hvalue⟩ := value_carried (hfits.nearest_le hnearest)
    (hfits.le_nearest hnearest) hfits.le (by omega)
  rcases hg.lt_or_eq with hlt | rfl
  · have hgap : (2 : ℚ) ^ g ≤ 2 ^ (-53 : ℤ) := zpow_le_zpow_right₀ one_le_two (by omega)
    have hgap' : (2 : ℚ) ^ (-53 : ℤ) = 1 / 2 ^ 53 := by norm_num
    rw [hgap'] at hgap
    have hlow := (le_div_iff₀ hunit).1 hnearest.low
    have hhigh := (div_le_iff₀ hunit).1 hnearest.high
    refine ⟨hnumber, ?_, ?_, ?_⟩
    · rw [hvalue]
      positivity
    · have hr : (r : ℚ) ≤ 2 ^ 53 := by exact_mod_cast hfits.nearest_le hnearest
      rw [hvalue]
      calc
        (r : ℚ) * 2 ^ g ≤ 2 ^ 53 * (1 / 2 ^ 53) := by gcongr
        _ = 1 := by norm_num
    · rw [hvalue, abs_le]
      constructor <;> linarith
  · -- At the exponent of one there is no other number up to one.
    have hone : v = 1 := by
      refine le_antisymm hv ?_
      have hfull := hfits.full.resolve_left (by omega)
      calc
        (1 : ℚ) = 2 ^ 52 * 2 ^ (-52 : ℤ) := by norm_num
        _ ≤ v := hfull
    have hr : r = 2 ^ 52 := by
      refine hnearest.unique ?_
      rw [hone]
      constructor <;> norm_num
    have hvalue_one : value (carried r (-52)) = 1 := by
      rw [hvalue, hr]
      norm_num
    rw [hone, ← hvalue_one]
    exact .self hnumber (by rw [hvalue_one]; exact zero_le_one) hvalue_one.le

/-- What stands for a number up to one at a small exponent is rounded to one near it. -/
theorem near_roundWithAccuracy {q : ℕ} {t : ℤ} {accuracy : Accuracy} {v : ℚ}
    (h : StandsFor (ExtendedMantissa.ofMantissaAndAccuracy q accuracy) (v / 2 ^ t))
    (ht : ∀ g, FitsAt v g → t ≤ g) (hpos : 0 < v) (hv : v ≤ 1) :
    Near (roundWithAccuracy Format.binary64 .positive q t accuracy) v := by
  obtain ⟨g, hfits⟩ := exists_fitsAt hpos
  obtain ⟨r, hnearest, hround⟩ := roundWithAccuracy_eq_carried h hfits (ht g hfits)
  rw [hround]
  exact near_carried hfits hnearest hv

/-- A number up to one that is not negative is normalized to one near it. -/
theorem near_normalize {k t : ℤ} {v : ℚ} (hvalue : (k : ℚ) * 2 ^ t = v) (hlow : 0 ≤ v)
    (hhigh : v ≤ 1) : Near (UnpackedFloat.normalize Format.binary64 k t .positive) v := by
  have hunit : (0 : ℚ) < 2 ^ t := zpow_pos two_pos t
  have hk : 0 ≤ k := by
    rw [← hvalue] at hlow
    exact_mod_cast nonneg_of_mul_nonneg_left hlow hunit
  unfold UnpackedFloat.normalize
  rcases hk.lt_or_eq with hpos | rfl
  · obtain ⟨n, rfl⟩ := Int.eq_ofNat_of_zero_le hk
    have hn : 0 < n := by omega
    rw [Int.compare_eq_gt.2 hpos]
    dsimp only
    rw [Int.toNat_natCast]
    obtain ⟨q, s, hround, hdigits, hsmall⟩ := exists_digits hn t
    rw [Int.cast_natCast] at hvalue
    rw [hvalue] at hdigits hsmall
    rw [hround]
    exact near_roundWithAccuracy hdigits hsmall (hvalue ▸ by positivity) hhigh
  · rw [Int.compare_eq_eq.2 rfl, ← hvalue, Int.cast_zero, zero_mul]
    exact near_zero _

/-! ## Operations -/

/-- The magnitude of a number that is not negative. -/
theorem magnitude_cases {u : UnpackedFloat} (hu : IsNumber u) (hlow : 0 ≤ value u) :
    (∃ s, u = .zero s) ∨ ∃ (m : ℕ) (e : ℤ) (hm : 0 < m), u = .finite .positive m e hm ∧
      Canonical m e ∧ value u = m * 2 ^ e := by
  match u with
  | .zero s => exact Or.inl ⟨s, rfl⟩
  | .finite .positive m e hm => exact Or.inr ⟨m, e, hm, rfl, hu.1, rfl⟩
  | .finite .negative m e hm =>
    have hpos : (0 : ℚ) < m * 2 ^ e := by positivity
    simp only [value, Sign.apply, Int.cast_neg, Int.cast_natCast] at hlow
    linarith

section Operations

variable {u w : UnpackedFloat} (hu : IsNumber u) (hw : IsNumber w)

include hu hw

/-- A quotient of two magnitudes, the first of which is at most the second, is near the exact one.
-/
theorem near_div (hlow : 0 ≤ value u) (hle : value u ≤ value w) (hpos : 0 < value w) :
    Near (UnpackedFloat.div Format.binary64 u w) (value u / value w) := by
  have hone : value u / value w ≤ 1 := (div_le_one hpos).2 hle
  rcases magnitude_cases hw hpos.le with ⟨s, rfl⟩ | ⟨n, f, hn, rfl, -, hwvalue⟩
  · exact absurd hpos (lt_irrefl 0)
  · rcases magnitude_cases hu hlow with ⟨s, rfl⟩ | ⟨m, e, hm, rfl, -, huvalue⟩
    · have hzero : value (.zero s) = 0 := rfl
      rw [hzero, zero_div]
      exact near_zero _
    · obtain ⟨q, t, accuracy, hdiv, hdigits, hsmall⟩ := exists_quotient_digits hm hn
      rw [huvalue, hwvalue] at hone ⊢
      rw [hdiv]
      exact near_roundWithAccuracy hdigits hsmall (by positivity) hone

/-- A product has enough digits, or one of its factors is so small that its exponent is below all
others. -/
theorem near_mul (hulow : 0 ≤ value u) (huhigh : value u ≤ 1) (hwlow : 0 ≤ value w)
    (hwhigh : value w ≤ 1) :
    Near (UnpackedFloat.mul Format.binary64 u w) (value u * value w) := by
  have hone : value u * value w ≤ 1 := mul_le_one₀ huhigh hwlow hwhigh
  rcases magnitude_cases hu hulow with ⟨s, rfl⟩ | ⟨m, e, hm, rfl, hcanonical, huvalue⟩
  · have hzero : value (.zero s) = 0 := rfl
    rw [hzero, zero_mul]
    rcases magnitude_cases hw hwlow with ⟨s', rfl⟩ | ⟨n, f, hn, rfl, -, -⟩ <;> exact near_zero _
  · rcases magnitude_cases hw hwlow with ⟨s, rfl⟩ | ⟨n, f, hn, rfl, -, hwvalue⟩
    · have hzero : value (.zero s) = 0 := rfl
      rw [hzero, mul_zero]
      exact near_zero _
    · have hproduct : (m : ℚ) * 2 ^ e * (n * 2 ^ f) = (m * n : ℕ) * 2 ^ (e + f) := by
        rw [zpow_add₀ two_ne_zero]
        push_cast
        ring
      have hunit : (0 : ℚ) < 2 ^ (e + f) := zpow_pos two_pos _
      rw [huvalue, hwvalue, hproduct] at hone ⊢
      refine near_roundWithAccuracy (q := m * n) (t := e + f) ?_ ?_ (by positivity) hone
      · rw [mul_div_assoc, div_self hunit.ne', mul_one]
        exact standsFor_exact (m * n)
      · intro g hfits
        by_cases hdigits : 2 ^ 52 ≤ m * n
        · apply hfits.le_of_le
          rw [zpow_add₀ two_ne_zero, mul_comm]
          exact mul_le_mul_of_nonneg_right (by exact_mod_cast hdigits) hunit.le
        · have hsmall : m < 2 ^ 52 := (Nat.le_mul_of_pos_right m hn).trans_lt (not_le.1 hdigits)
          have hlog : m.log2 < 52 := (Nat.log2_lt hm.ne').2 hsmall
          have hf : f ≤ 0 := by
            have hn1 : (1 : ℚ) ≤ n := by exact_mod_cast hn
            have hle : (2 : ℚ) ^ f ≤ 2 ^ (0 : ℤ) := by
              rw [zpow_zero]
              have hf0 : (0 : ℚ) ≤ 2 ^ f := (zpow_pos two_pos f).le
              nlinarith
            exact (zpow_le_zpow_iff_right₀ one_lt_two).1 hle
          rw [canonical_iff] at hcanonical
          have hg := hfits.le
          omega

/-- A difference between zero and one is near the exact one. -/
theorem near_sub (hlow : value w ≤ value u) (hhigh : value u - value w ≤ 1) :
    Near (UnpackedFloat.sub Format.binary64 u w) (value u - value w) := by
  have hlow' : 0 ≤ value u - value w := sub_nonneg.2 hlow
  match u, w with
  | .zero s, .zero s' =>
    have hzero : value (.zero s) - value (.zero s') = 0 := sub_self 0
    rw [hzero]
    cases s <;> cases s' <;> exact near_zero _
  | .zero s, .finite s' n f hn =>
    have hvalue : value (.zero s) - value (.finite s' n f hn) = value (.finite (-s') n f hn) := by
      cases s' <;> simp [value, Sign.apply]
    rw [hvalue] at hlow' hhigh ⊢
    exact .self (u := .finite (-s') n f hn) hw hlow' hhigh
  | .finite s m e hm, .zero s' =>
    have hzero : value (.zero s') = 0 := rfl
    rw [hzero, sub_zero] at hlow' hhigh ⊢
    exact .self (u := .finite s m e hm) hu hlow' hhigh
  | .finite s m e hm, .finite s' n f hn =>
    refine near_normalize ?_ hlow' hhigh
    rw [Int.cast_sub, sub_mul]
    exact congrArg₂ _ (apply_shifted_value s (min_le_left e f))
      (apply_shifted_value s' (min_le_right e f))

end Operations

end LeadScoring.Rounding

/-! ## Doubles -/

namespace LeadScoring.Binary64

/-- A finite double between zero and one that is as close to an exact number as rounding leaves
it. -/
structure Near (x : Float) (v : ℚ) : Prop where
  isFinite : isFinite x = true
  nonneg : 0 ≤ toRat x
  le_one : toRat x ≤ 1
  error : |toRat x - v| ≤ 1 / 2 ^ 54

variable {x y : Float}

/-- A double that holds what an operation returned is as near as that. -/
theorem near_of_unpack {v : ℚ} {u : UnpackedFloat}
    (hx : x.toModel.unpack =
      UnpackedFloat.unpack Format.binary64 (UnpackedFloat.pack Format.binary64 u))
    (hu : Rounding.Near u v) : Near x v := by
  rw [Rounding.unpack_pack_of_isNumber hu.isNumber] at hx
  have hfinite : isFinite x = true := isFinite_iff_isNumber.2 (hx ▸ hu.isNumber)
  have hvalue : toRat x = Rounding.value u := by rw [toRat_eq_value hfinite, hx]
  refine ⟨hfinite, ?_, ?_, ?_⟩ <;> rw [hvalue]
  · exact hu.nonneg
  · exact hu.le_one
  · exact hu.error

section Operations

variable (hx : isFinite x = true) (hy : isFinite y = true)

include hx hy

/-- The quotient of two doubles is near the exact one if this is a share. -/
theorem near_div (hlow : 0 ≤ toRat x) (hle : toRat x ≤ toRat y) (hpos : 0 < toRat y) :
    Near (x / y) (toRat x / toRat y) := by
  rw [toRat_eq_value hx, toRat_eq_value hy] at *
  exact near_of_unpack (unpack_div x y)
    (Rounding.near_div (isNumber_of_isFinite hx) (isNumber_of_isFinite hy) hlow hle hpos)

/-- The product of two doubles between zero and one is near the exact one. -/
theorem near_mul (hxlow : 0 ≤ toRat x) (hxhigh : toRat x ≤ 1) (hylow : 0 ≤ toRat y)
    (hyhigh : toRat y ≤ 1) : Near (x * y) (toRat x * toRat y) := by
  rw [toRat_eq_value hx] at *
  rw [toRat_eq_value hy] at *
  exact near_of_unpack rfl (Rounding.near_mul (isNumber_of_isFinite hx) (isNumber_of_isFinite hy)
    hxlow hxhigh hylow hyhigh)

/-- The difference of two doubles is near the exact one if this is a share. -/
theorem near_sub (hlow : toRat y ≤ toRat x) (hhigh : toRat x - toRat y ≤ 1) :
    Near (x - y) (toRat x - toRat y) := by
  rw [toRat_eq_value hx, toRat_eq_value hy] at *
  exact near_of_unpack rfl
    (Rounding.near_sub (isNumber_of_isFinite hx) (isNumber_of_isFinite hy) hlow hhigh)

end Operations

end LeadScoring.Binary64
