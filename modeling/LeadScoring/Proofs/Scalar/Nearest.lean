import LeadScoring.Proofs.Scalar.Rounding

/-!
# Rounding to the nearest double

Beside the digits of a mantissa, rounding keeps two bits about what follows them: whether the next
digit is set, and whether any digit behind it is.  That is enough to find the nearest mantissa.  A
positive number therefore rounds to a double exactly as far as it lies in the double's window, which
reaches half a gap to either side; below a power of two the gap is half as wide.

Main results:

- Definition `StandsFor` and theorem `StandsFor.shiftRight`: what the two bits say is kept by
  shifts.
- Definition `Nearest` and theorem `StandsFor.nearest`: rounding picks the nearest mantissa.
- Definition `RoundsTo` and theorem `RoundsTo.cases`: the window of a double, which holds what
  has the double's exponent and nearest mantissa.
- Theorems `roundWithAccuracy_of_roundsTo`, `round_of_roundsTo`: what lies in the window of a double
  is rounded to it.
-/

open Float.Model Float.Model.UnpackedFloat

namespace LeadScoring.Rounding

/-! ## Digits that are left out -/

/-- A mantissa with its two bits stands for a number: it is the whole part, and the bits compare the
rest with zero and with one half. -/
def StandsFor (em : ExtendedMantissa) (x : ℚ) : Prop :=
  match em.roundBit, em.stickyBit with
  | false, false => x = em.mantissa
  | false, true => em.mantissa < x ∧ x < em.mantissa + 1 / 2
  | true, false => x = em.mantissa + 1 / 2
  | true, true => em.mantissa + 1 / 2 < x ∧ x < em.mantissa + 1

namespace StandsFor

variable {em : ExtendedMantissa} {x : ℚ}

/-- The mantissa is the whole part. -/
theorem whole (h : StandsFor em x) : (em.mantissa : ℚ) ≤ x ∧ x < em.mantissa + 1 := by
  rcases em with ⟨m, r, s⟩
  cases r <;> cases s <;> simp only [StandsFor] at h <;> constructor <;> linarith

/-- Halving moves the last digit into the first bit. -/
theorem shiftRightOne (h : StandsFor em x) : StandsFor em.shiftRightOne (x / 2) := by
  rcases em with ⟨m, r, s⟩
  have hparts : (m : ℚ) = 2 * (m / 2 : ℕ) + (m % 2 : ℕ) := by
    exact_mod_cast (Nat.div_add_mod m 2).symm
  rcases Nat.mod_two_eq_zero_or_one m with hm | hm
  · rw [hm] at hparts
    cases r <;> cases s <;> simp [StandsFor, ExtendedMantissa.shiftRightOne, hm] at h ⊢ <;>
      push_cast at hparts <;> first | (constructor <;> linarith) | linarith
  · rw [hm] at hparts
    cases r <;> cases s <;> simp [StandsFor, ExtendedMantissa.shiftRightOne, hm] at h ⊢ <;>
      push_cast at hparts <;> first | (constructor <;> linarith) | linarith

/-- Shifts keep what the bits say. -/
theorem shiftRight (h : StandsFor em x) (k : ℕ) : StandsFor (em >>> k) (x / 2 ^ k) := by
  change StandsFor (k.repeat ExtendedMantissa.shiftRightOne em) _
  induction k with
  | zero => simpa [Nat.repeat] using h
  | succ k ih =>
    rw [Nat.repeat, pow_succ, ← div_div]
    exact ih.shiftRightOne

end StandsFor

/-- An exact mantissa stands for itself. -/
theorem standsFor_exact (m : ℕ) :
    StandsFor (ExtendedMantissa.ofMantissaAndAccuracy m .exact) m :=
  rfl

/-- The bits of a quotient compare its remainder with half of the divisor. -/
theorem standsFor_quotient (n : ℕ) {d : ℕ} (hd : 0 < d) :
    StandsFor (ExtendedMantissa.ofMantissaAndAccuracy (n / d) (accuracyOfFraction (n % d) d))
      ((n : ℚ) / d) := by
  have hd' : (0 : ℚ) < d := by exact_mod_cast hd
  have hlt : ((n % d : ℕ) : ℚ) < d := by exact_mod_cast Nat.mod_lt n hd
  have hquotient : (n : ℚ) / d = (n / d : ℕ) + (n % d : ℕ) / (d : ℚ) := by
    have hparts : (n : ℚ) = d * (n / d : ℕ) + (n % d : ℕ) := by
      exact_mod_cast (Nat.div_add_mod n d).symm
    rw [hparts, add_div, mul_div_cancel_left₀ _ hd'.ne']
  rw [hquotient]
  generalize n / d = q
  generalize n % d = r at hlt
  have hrest : (r : ℚ) / d < 1 := (div_lt_one hd').2 hlt
  unfold accuracyOfFraction
  by_cases hr : r = 0
  · simp [hr, StandsFor, ExtendedMantissa.ofMantissaAndAccuracy]
  · have hr' : (0 : ℚ) < r / d := by
      apply div_pos _ hd'
      exact_mod_cast Nat.pos_of_ne_zero hr
    rw [if_neg hr]
    rcases Nat.lt_trichotomy (2 * r) d with h | h | h
    · have hhalf : (r : ℚ) / d < 1 / 2 := by
        rw [div_lt_div_iff₀ hd' two_pos]
        exact_mod_cast (by omega : r * 2 < 1 * d)
      rw [Nat.compare_eq_lt.2 h]
      simp only [StandsFor, ExtendedMantissa.ofMantissaAndAccuracy]
      constructor <;> linarith
    · have hhalf : (r : ℚ) / d = 1 / 2 := by
        rw [div_eq_div_iff hd'.ne' two_ne_zero]
        exact_mod_cast (by omega : r * 2 = 1 * d)
      rw [Nat.compare_eq_eq.2 h, hhalf]
      simp only [StandsFor, ExtendedMantissa.ofMantissaAndAccuracy]
    · have hhalf : 1 / 2 < (r : ℚ) / d := by
        rw [div_lt_div_iff₀ two_pos hd']
        exact_mod_cast (by omega : 1 * d < r * 2)
      rw [Nat.compare_eq_gt.2 h]
      simp only [StandsFor, ExtendedMantissa.ofMantissaAndAccuracy]
      constructor <;> linarith

/-! ## The nearest whole number -/

/-- The whole number nearest to a number, the even one of two. -/
structure Nearest (x : ℚ) (n : ℕ) : Prop where
  low : (n : ℚ) - 1 / 2 ≤ x
  high : x ≤ n + 1 / 2
  odd : n % 2 = 1 → (n : ℚ) - 1 / 2 < x ∧ x < n + 1 / 2

/-- Of two neighbours only one is nearest. -/
theorem Nearest.le {x : ℚ} {m n : ℕ} (hm : Nearest x m) (hn : Nearest x n) : m ≤ n := by
  by_contra hlt
  have hstep : (n : ℚ) + 1 ≤ m := by exact_mod_cast (by omega : n + 1 ≤ m)
  have hmlow := hm.low
  have hnhigh := hn.high
  obtain rfl : m = n + 1 := by
    have : (m : ℚ) ≤ n + 1 := by linarith
    have : m ≤ n + 1 := by exact_mod_cast this
    omega
  -- The number lies half way between the two, so the odd one of them is not nearest.
  rcases Nat.mod_two_eq_zero_or_one n with h | h
  · have hmodd := (hm.odd (by omega)).1
    push_cast at hmodd
    linarith
  · have hnodd := (hn.odd h).2
    push_cast at hmlow
    linarith

theorem Nearest.unique {x : ℚ} {m n : ℕ} (hm : Nearest x m) (hn : Nearest x n) : m = n :=
  le_antisymm (hm.le hn) (hn.le hm)

/-- Rounding picks the nearest whole number. -/
theorem StandsFor.nearest {em : ExtendedMantissa} {x : ℚ} (h : StandsFor em x) :
    Nearest x em.roundedMantissa := by
  rcases em with ⟨m, r, s⟩
  cases r <;> cases s <;>
    simp only [StandsFor, ExtendedMantissa.roundedMantissa, ExtendedMantissa.accuracy,
      Accuracy.roundToNearestEven] at h ⊢
  · exact ⟨by linarith, by linarith, fun _ => ⟨by linarith, by linarith⟩⟩
  · exact ⟨by linarith, by linarith, fun _ => ⟨by linarith, by linarith⟩⟩
  · rcases Nat.mod_two_eq_zero_or_one m with hm | hm
    · rw [hm]
      exact ⟨by push_cast; linarith, by push_cast; linarith, fun _ => by omega⟩
    · rw [hm]
      exact ⟨by push_cast; linarith, by push_cast; linarith, fun _ => by omega⟩
  · exact ⟨by push_cast; linarith, by push_cast; linarith,
      fun _ => ⟨by push_cast; linarith, by push_cast; linarith⟩⟩

/-! ## Rounding at an exponent -/

/-- The exponent at which a number has 53 digits before the point, or the smallest one if it has
fewer there. -/
structure FitsAt (v : ℚ) (g : ℤ) : Prop where
  le : -1074 ≤ g
  lt : v < 2 ^ 53 * 2 ^ g
  full : g = -1074 ∨ 2 ^ 52 * 2 ^ g ≤ v

/-- A number has its exponent above every power of two below it. -/
theorem FitsAt.le_of_le {v : ℚ} {g t : ℤ} (h : FitsAt v g) (ht : 2 ^ (t + 52) ≤ v) : t ≤ g := by
  have hlt : (2 : ℚ) ^ (t + 52) < 2 ^ (53 + g) := by
    calc
      (2 : ℚ) ^ (t + 52) ≤ v := ht
      _ < 2 ^ 53 * 2 ^ g := h.lt
      _ = 2 ^ (53 + g) := by rw [zpow_add₀ two_ne_zero]; norm_num
  have hexponent := (zpow_lt_zpow_iff_right₀ one_lt_two).1 hlt
  omega

/-- Rounding drops the digits behind the target exponent and carries. -/
theorem roundWithAccuracy_eq (m : ℕ) (e : ℤ) (accuracy : Accuracy) :
    roundWithAccuracy Format.binary64 .positive m e accuracy =
      carried
        (ExtendedMantissa.ofMantissaAndAccuracy m accuracy >>>
          (Format.binary64.targetExponent (totalExponent m e) - e).toNat).roundedMantissa
        (e + (Format.binary64.targetExponent (totalExponent m e) - e).toNat) := by
  unfold roundWithAccuracy carried shiftToTargetExponent shiftToExponent
  simp only [mantissa_shiftRight, mantissa_ofMantissaAndAccuracy]

/-- A mantissa that stands for a number at a small exponent has as many digits more than 53 as its
exponent is smaller than the number's own. -/
theorem FitsAt.log2_of_standsFor {em : ExtendedMantissa} {v : ℚ} {t g : ℤ} {k : ℕ}
    (hfits : FitsAt v g) (hk : g = t + k) (h : StandsFor em (v / 2 ^ t)) :
    em.mantissa.log2 ≤ 52 + k ∧ (g = -1074 ∨ 52 + k ≤ em.mantissa.log2) := by
  have hpow : ∀ i : ℕ, (2 : ℚ) ^ i * 2 ^ g / 2 ^ t = 2 ^ (i + k) := by
    intro i
    rw [hk, zpow_add₀ two_ne_zero, zpow_natCast, pow_add]
    field_simp
  have htwo : (0 : ℚ) < 2 ^ t := zpow_pos two_pos t
  rcases h.whole with ⟨hwhole, hrest⟩
  constructor
  · have hlt : (em.mantissa : ℚ) < 2 ^ (53 + k) := by
      rw [← hpow]
      exact lt_of_le_of_lt hwhole (div_lt_div_of_pos_right hfits.lt htwo)
    have hlt' : em.mantissa < 2 ^ (53 + k) := by exact_mod_cast hlt
    rcases Nat.eq_zero_or_pos em.mantissa with hzero | hpos
    · simp [hzero]
    · have := (Nat.log2_lt hpos.ne').2 hlt'
      omega
  · rcases hfits.full with hg | hfull
    · exact Or.inl hg
    · right
      have hle : (2 : ℚ) ^ (52 + k) < em.mantissa + 1 := by
        rw [← hpow]
        exact lt_of_le_of_lt (div_le_div_of_nonneg_right hfull htwo.le) hrest
      have hle' : 2 ^ (52 + k) < em.mantissa + 1 := by exact_mod_cast hle
      have hpos : 0 < 2 ^ (52 + k) := by positivity
      exact (Nat.le_log2 (by omega)).2 (Nat.le_of_lt_succ hle')

/-- Whatever stands for a number at a small exponent is rounded at the number's own exponent. -/
theorem roundWithAccuracy_eq_carried {m : ℕ} {t g : ℤ} {accuracy : Accuracy} {v : ℚ}
    (h : StandsFor (ExtendedMantissa.ofMantissaAndAccuracy m accuracy) (v / 2 ^ t))
    (hfits : FitsAt v g) (ht : t ≤ g) :
    ∃ n, Nearest (v / 2 ^ g) n ∧
      roundWithAccuracy Format.binary64 .positive m t accuracy = carried n g := by
  obtain ⟨k, hk⟩ : ∃ k : ℕ, g = t + k := ⟨(g - t).toNat, by omega⟩
  have hlog := hfits.log2_of_standsFor hk h
  rw [mantissa_ofMantissaAndAccuracy] at hlog
  have hshift : (Format.binary64.targetExponent (totalExponent m t) - t).toNat = k := by
    have hg := hfits.le
    rw [targetExponent_eq, totalExponent]
    omega
  have hnearest := (h.shiftRight k).nearest
  rw [div_div, ← zpow_natCast, ← zpow_add₀ two_ne_zero, ← hk] at hnearest
  refine ⟨_, hnearest, ?_⟩
  rw [roundWithAccuracy_eq, hshift, ← hk]

/-! ## The window of a double -/

/-- How far below its value the window of a double reaches, in units of the gap above it. -/
def lowerReach (m : ℕ) (e : ℤ) : ℚ :=
  if m = 2 ^ 52 ∧ -1074 < e then 1 / 4 else 1 / 2

/-- A number lies in the window of a double.  The ends belong to it if the mantissa is even. -/
structure RoundsTo (v : ℚ) (m : ℕ) (e : ℤ) : Prop where
  low : (m - lowerReach m e) * 2 ^ e ≤ v
  high : v ≤ (m + 1 / 2) * 2 ^ e
  odd : m % 2 = 1 → (m - lowerReach m e) * 2 ^ e < v ∧ v < (m + 1 / 2) * 2 ^ e

section Window

variable {v : ℚ} {m : ℕ} {e : ℤ}

/-- Below a power of two the gap is half as wide, and 53 digits are counted in half units. -/
theorem RoundsTo.below (h : RoundsTo v (2 ^ 52) e) (he : -1074 < e)
    (hlt : v < (2 ^ 52 : ℕ) * 2 ^ e) :
    FitsAt v (e - 1) ∧ Nearest (v / 2 ^ (e - 1)) (2 ^ 53) := by
  have hhalf : (2 : ℚ) ^ e = 2 * 2 ^ (e - 1) := by
    rw [← zpow_one_add₀ two_ne_zero]
    congr 1
    omega
  have hunit : (0 : ℚ) < 2 ^ (e - 1) := zpow_pos two_pos _
  have hlow := h.low
  rw [lowerReach, if_pos ⟨rfl, he⟩, hhalf] at hlow
  rw [hhalf] at hlt
  push_cast at hlow hlt
  refine ⟨⟨by omega, by linarith, Or.inr (by linarith)⟩, ?_, ?_, ?_⟩
  · rw [le_div_iff₀ hunit]
    push_cast
    linarith
  · rw [div_le_iff₀ hunit]
    push_cast
    linarith
  · intro hodd
    omega

/-- Elsewhere the window reaches down by half a unit at most, and does not lose a digit. -/
theorem RoundsTo.low_of_not_below (h : RoundsTo v m e) (hm : Canonical m e)
    (habove : ¬ (m = 2 ^ 52 ∧ -1074 < e ∧ v < m * 2 ^ e)) :
    ((m : ℚ) - 1 / 2) * 2 ^ e ≤ v ∧ (m % 2 = 1 → ((m : ℚ) - 1 / 2) * 2 ^ e < v) ∧
      (e = -1074 ∨ 2 ^ 52 * 2 ^ e ≤ v) := by
  obtain ⟨-, hmin, hform⟩ := canonical_iff.1 hm
  have hunit : (0 : ℚ) < 2 ^ e := zpow_pos two_pos e
  by_cases hpower : m = 2 ^ 52 ∧ -1074 < e
  · have hle : (m : ℚ) * 2 ^ e ≤ v := by
      by_contra hlt
      exact habove ⟨hpower.1, hpower.2, not_le.1 hlt⟩
    refine ⟨by linarith, fun hodd => by omega, Or.inr ?_⟩
    rw [hpower.1] at hle
    exact_mod_cast hle
  · have hlow := h.low
    have hodd := h.odd
    rw [lowerReach, if_neg hpower] at hlow hodd
    refine ⟨hlow, fun h => (hodd h).1, ?_⟩
    by_cases he : e = -1074
    · exact Or.inl he
    · right
      have hm52 : 2 ^ 52 ≤ m := by
        rw [← Nat.le_log2 (by rintro rfl; simp at hform; omega)]
        omega
      have hnext : (2 ^ 52 : ℚ) + 1 ≤ m := by exact_mod_cast (by omega : 2 ^ 52 + 1 ≤ m)
      nlinarith

/-- A number in the window of a double has the double's exponent and its mantissa is nearest, unless
it lies below a power of two, where the exponent is one less. -/
theorem RoundsTo.cases (h : RoundsTo v m e) (hm : Canonical m e) :
    (FitsAt v e ∧ Nearest (v / 2 ^ e) m) ∨
      (m = 2 ^ 52 ∧ FitsAt v (e - 1) ∧ Nearest (v / 2 ^ (e - 1)) (2 ^ 53)) := by
  obtain ⟨hlog, hmin, -⟩ := canonical_iff.1 hm
  by_cases hbelow : m = 2 ^ 52 ∧ -1074 < e ∧ v < m * 2 ^ e
  · rcases hbelow with ⟨rfl, he, hlt⟩
    exact Or.inr ⟨rfl, h.below he hlt⟩
  · left
    rcases h.low_of_not_below hm hbelow with ⟨hlow, hodd, hfull⟩
    have hunit : (0 : ℚ) < 2 ^ e := zpow_pos two_pos e
    have hmax : (m : ℚ) + 1 ≤ 2 ^ 53 := by exact_mod_cast lt_two_pow_53 hlog
    have hhigh := h.high
    refine ⟨⟨hmin, by nlinarith, hfull⟩, ?_, ?_, ?_⟩
    · rw [le_div_iff₀ hunit]
      exact hlow
    · rw [div_le_iff₀ hunit]
      exact hhigh
    · intro hm2
      rw [lt_div_iff₀ hunit, div_lt_iff₀ hunit]
      exact ⟨hodd hm2, (h.odd hm2).2⟩

end Window

/-- What stands for a number in the window of a double is rounded to that double. -/
theorem roundWithAccuracy_of_roundsTo {q m : ℕ} {t e : ℤ} {accuracy : Accuracy} {v : ℚ}
    (h : StandsFor (ExtendedMantissa.ofMantissaAndAccuracy q accuracy) (v / 2 ^ t))
    (ht : ∀ g, FitsAt v g → t ≤ g) (hm : 0 < m) (hcanonical : Canonical m e)
    (hrounds : RoundsTo v m e) :
    roundWithAccuracy Format.binary64 .positive q t accuracy = .finite .positive m e hm := by
  obtain ⟨hlog, hlow, hform⟩ := canonical_iff.1 hcanonical
  rcases hrounds.cases hcanonical with ⟨hfits, hnearest⟩ | ⟨rfl, hfits, hnearest⟩
  · rcases roundWithAccuracy_eq_carried h hfits (ht e hfits) with ⟨n, hn, hround⟩
    rw [hround, hn.unique hnearest, carried_of_lt hm hlog hlow]
  · rcases roundWithAccuracy_eq_carried h hfits (ht _ hfits) with ⟨n, hn, hround⟩
    rw [hround, hn.unique hnearest, carried_two_pow hfits.le]
    simp

/-! ## Rounding a magnitude -/

/-- Rounding starts from digits that stand for the number at a small enough exponent. -/
theorem exists_digits {n : ℕ} (hn : 0 < n) (f : ℤ) :
    ∃ (q : ℕ) (t : ℤ),
      round Format.binary64 .positive n f =
        roundWithAccuracy Format.binary64 .positive q t .exact ∧
      StandsFor (ExtendedMantissa.ofMantissaAndAccuracy q .exact) (n * 2 ^ f / 2 ^ t) ∧
      ∀ g, FitsAt (n * 2 ^ f) g → t ≤ g := by
  obtain ⟨d, hd⟩ : ∃ d : ℕ,
      (f - Format.binary64.targetExponent (totalExponent n f)).toNat = d := ⟨_, rfl⟩
  refine ⟨n * 2 ^ d, f - d, ?_, ?_, ?_⟩
  · unfold UnpackedFloat.round decreaseExponent
    simp only [hd, Nat.shiftLeft_eq]
  · have hscaled : (n : ℚ) * 2 ^ f / 2 ^ (f - d) = (n * 2 ^ d : ℕ) := by
      rw [zpow_sub₀ two_ne_zero, zpow_natCast]
      push_cast
      field_simp
    rw [hscaled]
    exact standsFor_exact (n * 2 ^ d)
  · intro g hfits
    rw [targetExponent_eq, totalExponent] at hd
    have hg := hfits.le
    have htop : (n.log2 : ℤ) + f - 52 ≤ g := by
      apply hfits.le_of_le
      have hlow : (2 : ℚ) ^ (n.log2 : ℤ) ≤ n := by exact_mod_cast Nat.log2_self_le hn.ne'
      rw [sub_add_cancel, zpow_add₀ two_ne_zero]
      gcongr
    omega

/-- A magnitude is rounded to the double in whose window it lies. -/
theorem round_of_roundsTo {n m : ℕ} {f e : ℤ} (hn : 0 < n) (hm : 0 < m)
    (hcanonical : Canonical m e) (hrounds : RoundsTo (n * 2 ^ f) m e) :
    round Format.binary64 .positive n f = .finite .positive m e hm := by
  obtain ⟨q, t, hround, hdigits, hsmall⟩ := exists_digits hn f
  rw [hround]
  exact roundWithAccuracy_of_roundsTo hdigits hsmall hm hcanonical hrounds

/-! ## Products and quotients -/

section Operations

variable {m m₁ m₂ : ℕ} {e e₁ e₂ : ℤ} (hm : 0 < m) (hm₁ : 0 < m₁) (hm₂ : 0 < m₂)

/-- A product with enough digits is rounded to the double in whose window it lies. -/
theorem mul_of_roundsTo (hcanonical : Canonical m e)
    (hdigits : (2 : ℚ) ^ 52 ≤ (m₁ * m₂ : ℕ))
    (hrounds : RoundsTo ((m₁ * m₂ : ℕ) * 2 ^ (e₁ + e₂)) m e) :
    mul Format.binary64 (.finite .positive m₁ e₁ hm₁) (.finite .positive m₂ e₂ hm₂) =
      .finite .positive m e hm := by
  have hunit : (0 : ℚ) < 2 ^ (e₁ + e₂) := zpow_pos two_pos _
  refine roundWithAccuracy_of_roundsTo ?_ ?_ hm hcanonical hrounds
  · rw [mul_div_assoc, div_self hunit.ne', mul_one]
    exact standsFor_exact (m₁ * m₂)
  · intro g hfits
    apply hfits.le_of_le
    rw [zpow_add₀ two_ne_zero, mul_comm]
    exact mul_le_mul_of_nonneg_right (by exact_mod_cast hdigits) hunit.le

include hm₁ hm₂ in
/-- The quotient of two mantissas is at least half of the quotient of their leading digits. -/
theorem two_zpow_le_div :
    (2 : ℚ) ^ ((m₁.log2 : ℤ) + e₁ - (m₂.log2 + 1 + e₂)) ≤ m₁ * 2 ^ e₁ / (m₂ * 2 ^ e₂) := by
  have hlow : (2 : ℚ) ^ (m₁.log2 : ℤ) ≤ m₁ := by
    exact_mod_cast Nat.log2_self_le hm₁.ne'
  have hhigh : (m₂ : ℚ) ≤ 2 ^ (m₂.log2 + 1 : ℤ) := by
    exact_mod_cast (Nat.lt_log2_self (n := m₂)).le
  calc
    (2 : ℚ) ^ ((m₁.log2 : ℤ) + e₁ - (m₂.log2 + 1 + e₂)) =
        2 ^ (m₁.log2 : ℤ) * 2 ^ e₁ / (2 ^ (m₂.log2 + 1 : ℤ) * 2 ^ e₂) := by
      rw [← zpow_add₀ two_ne_zero, ← zpow_add₀ two_ne_zero, ← zpow_sub₀ two_ne_zero]
    _ ≤ m₁ * 2 ^ e₁ / (m₂ * 2 ^ e₂) := by gcongr

/-- Division starts from digits that stand for the quotient at a small enough exponent. -/
theorem exists_quotient_digits :
    ∃ (q : ℕ) (t : ℤ) (accuracy : Accuracy),
      div Format.binary64 (.finite .positive m₁ e₁ hm₁) (.finite .positive m₂ e₂ hm₂) =
        roundWithAccuracy Format.binary64 .positive q t accuracy ∧
      StandsFor (ExtendedMantissa.ofMantissaAndAccuracy q accuracy)
        (m₁ * 2 ^ e₁ / (m₂ * 2 ^ e₂) / 2 ^ t) ∧
      ∀ g, FitsAt (m₁ * 2 ^ e₁ / (m₂ * 2 ^ e₂)) g → t ≤ g := by
  obtain ⟨t, ht⟩ : ∃ t, t = min (e₁ - e₂)
      (Format.binary64.targetExponent (totalExponent m₁ e₁ - totalExponent m₂ e₂)) := ⟨_, rfl⟩
  obtain ⟨d, hd⟩ : ∃ d : ℕ, e₁ - e₂ = t + d := ⟨(e₁ - e₂ - t).toNat, by omega⟩
  have hcore : divCore Format.binary64 m₁ e₁ m₂ e₂ =
      (m₁ * 2 ^ d / m₂, t, accuracyOfFraction (m₁ * 2 ^ d % m₂) m₂) := by
    have hd' : (e₁ - e₂ - t).toNat = d := by omega
    unfold divCore
    simp only [← ht, hd', Nat.shiftLeft_eq]
  refine ⟨_, _, _, by rw [div_finite, hcore], ?_, ?_⟩
  · have hquotient : (m₁ : ℚ) * 2 ^ e₁ / (m₂ * 2 ^ e₂) / 2 ^ t = (m₁ * 2 ^ d : ℕ) / m₂ := by
      have he : e₁ = e₂ + (t + d) := by omega
      rw [he, zpow_add₀ two_ne_zero, zpow_add₀ two_ne_zero, zpow_natCast]
      push_cast
      field_simp
    rw [hquotient]
    exact standsFor_quotient (m₁ * 2 ^ d) hm₂
  · intro g hfits
    have htop : (m₁.log2 : ℤ) + e₁ - (m₂.log2 + e₂) - 53 ≤ g := by
      apply hfits.le_of_le
      calc
        (2 : ℚ) ^ ((m₁.log2 : ℤ) + e₁ - (m₂.log2 + e₂) - 53 + 52) =
            2 ^ ((m₁.log2 : ℤ) + e₁ - (m₂.log2 + 1 + e₂)) := by
          congr 1
          omega
        _ ≤ m₁ * 2 ^ e₁ / (m₂ * 2 ^ e₂) := two_zpow_le_div hm₁ hm₂
    have hg := hfits.le
    rw [targetExponent_eq, totalExponent, totalExponent] at ht
    change t ≤ g
    omega

/-- A quotient is rounded to the double in whose window it lies. -/
theorem div_of_roundsTo (hcanonical : Canonical m e)
    (hrounds : RoundsTo (m₁ * 2 ^ e₁ / (m₂ * 2 ^ e₂)) m e) :
    div Format.binary64 (.finite .positive m₁ e₁ hm₁) (.finite .positive m₂ e₂ hm₂) =
      .finite .positive m e hm := by
  obtain ⟨q, t, accuracy, hdiv, hdigits, hsmall⟩ := exists_quotient_digits hm₁ hm₂
  rw [hdiv]
  exact roundWithAccuracy_of_roundsTo hdigits hsmall hm hcanonical hrounds

end Operations

end LeadScoring.Rounding
