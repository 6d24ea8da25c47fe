import LeadScoring.Decimal.Shortest
import LeadScoring.Proofs.Decimal.Reading
import LeadScoring.Proofs.Scalar.Fields

/-!
# Shortest decimals are in the window

The window of a double is kept as whole numbers over a common denominator.  This module reads it
as an interval of rational numbers and shows that the search for a grid with a point inside ends
before it runs out of grids: the last grid that it tries is finer than a quarter of the gap
between doubles.

Main results:

- Definition `Window.Holds`: the numbers in a window.
- Theorem `Window.roundsTo_of_holds`: the numbers in the window of a double round to it.
- Theorem `Window.holds_firstGrid`: a search that meets a grid with a point inside finds one.
- Theorem `Decimal.roundsTo_shortest`: the shortest decimal of a double rounds to it.
-/

namespace LeadScoring

namespace Window

/-! ## The numbers in a window -/

/-- A number lies in a window, at an end of it only if the ends belong to it. -/
structure Holds (w : Window) (v : ℚ) : Prop where
  low : (w.low : ℚ) ≤ v * w.denominator
  high : v * w.denominator ≤ w.high
  opened : w.closed = false → (w.low : ℚ) < v * w.denominator ∧ v * w.denominator < w.high

theorem contains_iff {w : Window} {k : ℕ} : w.contains k = true ↔ w.Holds k := by
  unfold contains
  by_cases hclosed : w.closed = true
  · rw [if_pos hclosed, Bool.and_eq_true, decide_eq_true_eq, decide_eq_true_eq]
    constructor
    · rintro ⟨hlow, hhigh⟩
      exact ⟨by exact_mod_cast hlow, by exact_mod_cast hhigh, by simp [hclosed]⟩
    · intro h
      exact ⟨by exact_mod_cast h.low, by exact_mod_cast h.high⟩
  · have hopen : w.closed = false := by simpa using hclosed
    rw [if_neg hclosed, Bool.and_eq_true, decide_eq_true_eq, decide_eq_true_eq]
    constructor
    · rintro ⟨hlow, hhigh⟩
      have hlow' : (w.low : ℚ) < k * w.denominator := by exact_mod_cast hlow
      have hhigh' : (k : ℚ) * w.denominator < w.high := by exact_mod_cast hhigh
      exact ⟨hlow'.le, hhigh'.le, fun _ => ⟨hlow', hhigh'⟩⟩
    · intro h
      rcases h.opened hopen with ⟨hlow, hhigh⟩
      exact ⟨by exact_mod_cast hlow, by exact_mod_cast hhigh⟩

/-- Another unit multiplies the ends and the denominator. -/
theorem inUnits_eq (w : Window) (s : ℤ) :
    ∃ u d : ℕ, 0 < u ∧ (d : ℚ) = u * 10 ^ s ∧
      w.inUnits s = ⟨w.low * u, w.value * u, w.high * u, w.denominator * d, w.closed⟩ := by
  unfold inUnits
  by_cases hs : 0 ≤ s
  · obtain ⟨k, rfl⟩ := Int.eq_ofNat_of_zero_le hs
    refine ⟨1, 10 ^ k, one_pos, by push_cast; rw [one_mul, zpow_natCast], ?_⟩
    rw [if_pos hs, mul_one, mul_one, mul_one]
    rfl
  · obtain ⟨k, rfl⟩ : ∃ k : ℕ, s = -k := ⟨(-s).toNat, by omega⟩
    refine ⟨10 ^ k, 1, by positivity, ?_, ?_⟩
    · push_cast
      rw [zpow_neg, zpow_natCast, mul_inv_cancel₀ (by positivity)]
    · rw [if_neg hs, neg_neg, Int.toNat_natCast, mul_one]
      rfl

/-- A number in units of a power of ten lies in the window in these units. -/
theorem holds_inUnits_iff {w : Window} {s : ℤ} {v : ℚ} :
    (w.inUnits s).Holds v ↔ w.Holds (v * 10 ^ s) := by
  rcases inUnits_eq w s with ⟨u, d, hu, hd, heq⟩
  have hu' : (0 : ℚ) < u := by exact_mod_cast hu
  have hunit : v * (w.denominator * d : ℕ) = v * 10 ^ s * w.denominator * u := by
    push_cast
    rw [hd]
    ring
  rw [heq]
  constructor
  · rintro ⟨hlow, hhigh, hopened⟩
    dsimp only at hlow hhigh hopened
    rw [hunit] at hlow hhigh hopened
    push_cast at hlow hhigh hopened
    refine ⟨le_of_mul_le_mul_right hlow hu', le_of_mul_le_mul_right hhigh hu', fun hopen => ?_⟩
    exact ⟨lt_of_mul_lt_mul_right (hopened hopen).1 hu'.le,
      lt_of_mul_lt_mul_right (hopened hopen).2 hu'.le⟩
  · rintro ⟨hlow, hhigh, hopened⟩
    constructor <;> dsimp only <;> rw [hunit] <;> push_cast
    · exact mul_le_mul_of_nonneg_right hlow hu'.le
    · exact mul_le_mul_of_nonneg_right hhigh hu'.le
    · intro hopen
      exact ⟨mul_lt_mul_of_pos_right (hopened hopen).1 hu',
        mul_lt_mul_of_pos_right (hopened hopen).2 hu'⟩

/-! ## Points of a grid -/

/-- The whole number that is chosen lies inside. -/
theorem contains_of_nearestInside {w : Window} {tie : Tie} {k : ℕ}
    (h : w.nearestInside tie = some k) : w.contains k = true := by
  unfold nearestInside at h
  dsimp only at h
  split at h
  · cases h
  · cases h
    assumption
  · cases h
    assumption
  · rename_i hbelow habove
    split at h
    · cases h
      exact hbelow
    · cases h
      exact habove
    · split at h
      · split_ifs at h
        · cases h
          exact hbelow
        · cases h
          exact habove
      · cases h
        exact habove

/-- Nothing is chosen only if the whole number below the value lies outside. -/
theorem contains_of_nearestInside_eq_none {w : Window} {tie : Tie}
    (h : w.nearestInside tie = none) : w.contains (w.value / w.denominator) = false := by
  unfold nearestInside at h
  dsimp only at h
  split at h
  · assumption
  · cases h
  · cases h
  · split at h
    · cases h
    · cases h
    · split at h <;> cases h

/-- The multiple that is chosen lies in the window. -/
theorem holds_of_onGrid {w : Window} {s : ℤ} {tie : Tie} {k : ℕ} (h : w.onGrid s tie = some k) :
    w.Holds (k * 10 ^ s) :=
  holds_inUnits_iff.1 (contains_iff.1 (contains_of_nearestInside h))

/-- The whole number below the value lies inside if the window reaches down by one. -/
theorem contains_below {w : Window} (hd : 0 < w.denominator)
    (hlow : w.low + w.denominator ≤ w.value) (hhigh : w.value < w.high) :
    w.contains (w.value / w.denominator) = true := by
  have hparts := Nat.div_add_mod w.value w.denominator
  have hrest := Nat.mod_lt w.value hd
  rw [mul_comm] at hparts
  unfold contains
  split_ifs <;> rw [Bool.and_eq_true, decide_eq_true_eq, decide_eq_true_eq] <;> constructor <;>
    omega

/-- A grid whose steps are within the window's lower part has a point inside. -/
theorem onGrid_ne_none {w : Window} {s : ℤ} (tie : Tie) (hd : 0 < w.denominator)
    (hlow : (w.denominator : ℚ) * 10 ^ s ≤ w.value - w.low) (hhigh : w.value < w.high) :
    w.onGrid s tie ≠ none := by
  rcases inUnits_eq w s with ⟨u, d, hu, hunit, heq⟩
  have hu' : (0 : ℚ) < u := by exact_mod_cast hu
  have hd' : (0 : ℚ) < d := by
    rw [hunit]
    positivity
  have hstep : w.low * u + w.denominator * d ≤ w.value * u := by
    have : (w.low : ℚ) * u + w.denominator * d ≤ w.value * u := by
      rw [hunit]
      nlinarith
    exact_mod_cast this
  have hinside :
      (w.inUnits s).contains ((w.inUnits s).value / (w.inUnits s).denominator) = true := by
    rw [heq]
    apply contains_below
    · exact Nat.mul_pos hd (by exact_mod_cast hd')
    · exact hstep
    · exact Nat.mul_lt_mul_of_pos_right hhigh hu
  intro hnone
  rw [contains_of_nearestInside_eq_none hnone] at hinside
  cases hinside

/-- A search that meets a grid with a point inside finds one. -/
theorem holds_firstGrid {w : Window} {tie : Tie} {i n : ℕ} {s : ℤ} (hi : i < n)
    (h : w.onGrid (s - i) tie ≠ none) : w.Holds (w.firstGrid tie n s).value := by
  induction n generalizing i s with
  | zero => omega
  | succ n ih =>
    rw [firstGrid]
    cases hgrid : w.onGrid s tie with
    | some k => exact holds_of_onGrid hgrid
    | none =>
      cases i with
      | zero =>
        rw [Nat.cast_zero, sub_zero] at h
        exact absurd hgrid h
      | succ i =>
        apply ih (by omega : i < n)
        rw [Nat.cast_add, Nat.cast_one, add_comm, ← sub_sub] at h
        exact h

/-! ## The window of a double -/

/-- The gap below a double is narrow above a power of two. -/
theorem hasNarrowLowerGap_iff (x : Float) : Binary64.hasNarrowLowerGap x = true ↔
    Binary64.significand x = 2 ^ 52 ∧ -1074 < Binary64.scale x := by
  have hfraction : Binary64.fractionField x < 2 ^ 52 := Nat.mod_lt _ (by decide)
  unfold Binary64.hasNarrowLowerGap Binary64.significand Binary64.scale
  rw [Bool.and_eq_true, beq_iff_eq, decide_eq_true_eq, Nat.one_shiftLeft]
  by_cases hzero : Binary64.exponentField x = 0
  · rw [if_pos hzero, if_pos hzero]
    omega
  · rw [if_neg hzero, if_neg hzero]
    omega

/-- The window of a double, in quarters of the gap above it. -/
theorem ofFloat_eq (x : Float) :
    ∃ u d : ℕ, 0 < d ∧ (u : ℚ) = d * 2 ^ (Binary64.scale x - 2) ∧
      ofFloat x = ⟨(4 * Binary64.significand x -
          if Binary64.hasNarrowLowerGap x then 1 else 2) * u, 4 * Binary64.significand x * u,
        (4 * Binary64.significand x + 2) * u, d, Binary64.significand x % 2 == 0⟩ := by
  unfold ofFloat
  dsimp only
  by_cases hq : 0 ≤ Binary64.scale x - 2
  · obtain ⟨k, hk⟩ := Int.eq_ofNat_of_zero_le hq
    refine ⟨2 ^ k, 1, one_pos, by push_cast; rw [hk, one_mul, zpow_natCast], ?_⟩
    rw [if_pos hq, hk, Int.toNat_natCast, Nat.one_shiftLeft]
  · obtain ⟨k, hk⟩ : ∃ k : ℕ, Binary64.scale x - 2 = -k :=
      ⟨(-(Binary64.scale x - 2)).toNat, by omega⟩
    refine ⟨1, 2 ^ k, by positivity, ?_, ?_⟩
    · push_cast
      rw [hk, zpow_neg, zpow_natCast, mul_inv_cancel₀ (by positivity)]
    · rw [if_neg hq, hk, neg_neg, Int.toNat_natCast, Nat.one_shiftLeft, mul_one, mul_one, mul_one]

section Double

variable {x : Float} (hx : 0 < Binary64.significand x)

include hx

/-- The numbers in the window of a double round to it. -/
theorem roundsTo_of_holds {v : ℚ} (h : (ofFloat x).Holds v) :
    Rounding.RoundsTo v (Binary64.significand x) (Binary64.scale x) := by
  rcases ofFloat_eq x with ⟨u, d, hd, hunit, heq⟩
  have hd' : (0 : ℚ) < d := by exact_mod_cast hd
  have hscale : (2 : ℚ) ^ Binary64.scale x * d = 4 * u := by
    rw [hunit, zpow_sub₀ two_ne_zero]
    norm_num
    ring
  have hlow : (((4 * Binary64.significand x -
        if Binary64.hasNarrowLowerGap x then 1 else 2) * u : ℕ) : ℚ) =
      (Binary64.significand x - Rounding.lowerReach (Binary64.significand x) (Binary64.scale x)) *
        2 ^ Binary64.scale x * d := by
    rw [mul_assoc, hscale, Rounding.lowerReach]
    by_cases hnarrow : Binary64.hasNarrowLowerGap x = true
    · rw [if_pos hnarrow, if_pos ((hasNarrowLowerGap_iff x).1 hnarrow), Nat.cast_mul,
        Nat.cast_sub (by omega)]
      push_cast
      ring
    · rw [if_neg hnarrow, if_neg (mt (hasNarrowLowerGap_iff x).2 hnarrow), Nat.cast_mul,
        Nat.cast_sub (by omega)]
      push_cast
      ring
  have hhigh : (((4 * Binary64.significand x + 2) * u : ℕ) : ℚ) =
      (Binary64.significand x + 1 / 2) * 2 ^ Binary64.scale x * d := by
    rw [mul_assoc, hscale]
    push_cast
    ring
  rw [heq] at h
  rcases h with ⟨hheldLow, hheldHigh, hopened⟩
  dsimp only at hheldLow hheldHigh hopened
  rw [hlow] at hheldLow hopened
  rw [hhigh] at hheldHigh hopened
  refine ⟨le_of_mul_le_mul_right hheldLow hd', le_of_mul_le_mul_right hheldHigh hd', fun hodd => ?_⟩
  have hends := hopened (by rw [hodd]; rfl)
  exact ⟨lt_of_mul_lt_mul_right hends.1 hd'.le, lt_of_mul_lt_mul_right hends.2 hd'.le⟩

/-- A grid that is finer than a quarter of the gap above a double has a point in its window. -/
theorem onGrid_ofFloat_ne_none {s : ℤ} (tie : Tie)
    (hs : (10 : ℚ) ^ s ≤ 2 ^ (Binary64.scale x - 2)) : (ofFloat x).onGrid s tie ≠ none := by
  rcases ofFloat_eq x with ⟨u, d, hd, hunit, heq⟩
  have hd' : (0 : ℚ) < d := by exact_mod_cast hd
  have hu : 0 < u := by
    have : (0 : ℚ) < u := by
      rw [hunit]
      positivity
    exact_mod_cast this
  rw [heq]
  apply onGrid_ne_none
  · exact hd
  · have hgap : (d : ℚ) * 10 ^ s ≤ u := by
      rw [hunit]
      exact mul_le_mul_of_nonneg_left hs hd'.le
    have hreach : (4 * Binary64.significand x -
        if Binary64.hasNarrowLowerGap x then 1 else 2) * u + u ≤
          4 * Binary64.significand x * u := by
      rw [← Nat.succ_mul]
      apply Nat.mul_le_mul_right
      split_ifs <;> omega
    have hreach' : (((4 * Binary64.significand x -
        if Binary64.hasNarrowLowerGap x then 1 else 2) * u : ℕ) : ℚ) + u ≤
          (4 * Binary64.significand x * u : ℕ) := by exact_mod_cast hreach
    linarith
  · exact Nat.mul_lt_mul_of_pos_right (by omega) hu

end Double

end Window

namespace Decimal

/-! ## The search -/

/-- Powers of ten below powers of two, with the logarithm of two cut to five digits. -/
theorem ten_zpow_le_two_zpow {s t : ℤ} (h : 100000 * s + 244335 ≤ 30103 * t) (hlow : -2000 ≤ t)
    (hhigh : t ≤ 2000) : (10 : ℚ) ^ s ≤ 2 ^ t := by
  have hpow : ∀ (a : ℚ) (i : ℤ) (k : ℕ), (a ^ i) ^ k = a ^ (i * k) := by
    intro a i k
    rw [zpow_mul, zpow_natCast]
  by_cases hs : 0 ≤ s
  · obtain ⟨k, rfl⟩ := Int.eq_ofNat_of_zero_le hs
    rw [← pow_le_pow_iff_left₀ (by positivity) (by positivity) (by decide : 3 ≠ 0), hpow, hpow]
    calc
      (10 : ℚ) ^ ((k : ℤ) * (3 : ℕ)) = (10 ^ 3) ^ k := by
        rw [← pow_mul, mul_comm 3 k]
        exact_mod_cast rfl
      _ ≤ (2 ^ 10) ^ k := by gcongr; norm_num
      _ = 2 ^ (10 * k : ℤ) := by
        rw [← pow_mul]
        exact_mod_cast rfl
      _ ≤ 2 ^ (t * (3 : ℕ)) := zpow_le_zpow_right₀ one_le_two (by push_cast; omega)
  · obtain ⟨k, rfl⟩ : ∃ k : ℕ, s = -k := ⟨(-s).toNat, by omega⟩
    rw [← pow_le_pow_iff_left₀ (by positivity) (by positivity) (by decide : 28 ≠ 0), hpow, hpow]
    calc
      (10 : ℚ) ^ (-(k : ℤ) * (28 : ℕ)) = ((10 ^ 28) ^ k)⁻¹ := by
        rw [← pow_mul, mul_comm 28 k, neg_mul, zpow_neg]
        exact_mod_cast rfl
      _ ≤ ((2 ^ 93) ^ k)⁻¹ := by gcongr; norm_num
      _ = 2 ^ (-(93 * k) : ℤ) := by
        rw [← pow_mul, zpow_neg]
        exact_mod_cast rfl
      _ ≤ 2 ^ (t * (28 : ℕ)) := zpow_le_zpow_right₀ one_le_two (by push_cast; omega)

/-- The shortest decimal of a double rounds to it. -/
theorem roundsTo_shortest {x : Float} (hfinite : Binary64.isFinite x = true)
    (hx : 0 < Binary64.significand x) (tie : Tie) :
    Rounding.RoundsTo (shortest x tie).value (Binary64.significand x) (Binary64.scale x) := by
  obtain ⟨hlog, hlow, -⟩ :=
    Rounding.canonical_iff.1 (Binary64.canonical_of_isFinite hfinite hx.ne')
  have hhigh := Binary64.scale_le hfinite
  apply Window.roundsTo_of_holds hx
  -- The last of the grids is the finest one.
  apply Window.holds_firstGrid (by decide : 21 < 22)
  apply Window.onGrid_ofFloat_ne_none hx
  apply ten_zpow_le_two_zpow
  · rw [gridAbove, Int.fdiv_eq_ediv_of_nonneg _ (by decide)]
    push_cast
    omega
  · omega
  · omega

end Decimal

end LeadScoring
