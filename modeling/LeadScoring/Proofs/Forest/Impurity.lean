import LeadScoring.Forest.Growth
import LeadScoring.Proofs.Scalar.Identity

/-!
# The impurity of whole counts

Growth takes rows for pure if their impurity, as it is computed, does not exceed the gap between one
and the next double.  The five roundings of the computation change the impurity by less than twice
this gap, and among rows of two classes that weigh at most `2 ^ 51` together the impurity exceeds it
by more than that.

Main results:

- Theorem `ClassCounts.le_toRat_gini`: how far the computed impurity lies below the exact one.
- Theorem `ClassCounts.resolution_lt_gini`: rows of two classes are not taken for pure.
-/

namespace LeadScoring.ClassCounts

open Binary64 (IsWhole Near toRat toRat_one)

variable {c : ClassCounts Float} {a b : ℕ}

/-- The impurity of rows that weigh something, as it is computed. -/
theorem gini_of_pos {α : Type} [Scalar α] {c : ClassCounts α} (h : ¬ c.total ≤ 0) :
    c.gini = 1 - c.positive / c.total * (c.positive / c.total) -
      c.negative / c.total * (c.negative / c.total) :=
  if_neg h

/-- What weighs something is above zero. -/
theorem not_le_zero {x : Float} {n : ℕ} (hx : IsWhole x n) (hpos : 0 < n) : ¬ x ≤ 0 := by
  have hzero : IsWhole (0.0 : Float) 0 := Binary64.isWhole_zero
  change ¬ x ≤ (0.0 : Float)
  rw [Binary64.le_iff_toRat_le hx.finite hzero.finite, hx.toRat_eq, hzero.toRat_eq, not_le]
  exact_mod_cast hpos

/-- The squares of two numbers near the shares of a whole add up to little more than those of the
shares. -/
theorem squares_le {p q : Float} {x y : ℚ} (hshares : x + y = 1) (hp : Near p y) (hq : Near q x) :
    toRat p * toRat p + toRat q * toRat q ≤ 1 - 2 * x * y + 3 / 2 ^ 54 := by
  obtain ⟨-, hp'⟩ := abs_le.1 hp.error
  obtain ⟨-, hq'⟩ := abs_le.1 hq.error
  calc
    toRat p * toRat p + toRat q * toRat q ≤
        (y + 1 / 2 ^ 54) * (y + 1 / 2 ^ 54) + (x + 1 / 2 ^ 54) * (x + 1 / 2 ^ 54) :=
      add_le_add (mul_self_le_mul_self hp.nonneg (by linarith))
        (mul_self_le_mul_self hq.nonneg (by linarith))
    _ = (x + y) ^ 2 - 2 * x * y + 2 * (x + y) / 2 ^ 54 + 2 / 2 ^ 108 := by ring
    _ ≤ 1 - 2 * x * y + 3 / 2 ^ 54 := by
      rw [hshares]
      linarith

section Errors

variable (ha : IsWhole c.negative a) (hb : IsWhole c.positive b) (hsmall : a + b ≤ 2 ^ 53)

include ha hb hsmall

/-- The total of whole counts is whole. -/
theorem isWhole_total : IsWhole c.total (a + b) :=
  ha.add hb hsmall

/-- A share of whole counts is near the exact one. -/
theorem near_share (hpos : 0 < a + b) {x : Float} {n : ℕ} (hx : IsWhole x n) (hle : n ≤ a + b) :
    Near (x / c.total) (n / (a + b)) := by
  have htotal := isWhole_total ha hb hsmall
  have hdiv := Binary64.near_div hx.finite htotal.finite
  rw [hx.toRat_eq, htotal.toRat_eq] at hdiv
  rw [← Nat.cast_add]
  exact hdiv (Nat.cast_nonneg n) (Nat.cast_le.2 hle) (Nat.cast_pos.2 hpos)

/-- An impurity of at least `1 / 2 ^ 51` is computed with a loss of at most seven half gaps. -/
theorem le_toRat_gini (hpos : 0 < a + b)
    (hlow : 1 / 2 ^ 51 ≤ 2 * ((a : ℚ) / (a + b)) * (b / (a + b))) :
    Binary64.isFinite c.gini = true ∧
      2 * ((a : ℚ) / (a + b)) * (b / (a + b)) - 7 / 2 ^ 54 ≤ toRat c.gini := by
  have htotal := isWhole_total ha hb hsmall
  have hone : Binary64.isFinite (1.0 : Float) = true := by decide
  have hshares : (a : ℚ) / (a + b) + b / (a + b) = 1 := by
    rw [← add_div]
    exact div_self (by exact_mod_cast hpos.ne')
  have hgini : c.gini = (1.0 : Float) - c.positive / c.total * (c.positive / c.total) -
      c.negative / c.total * (c.negative / c.total) := gini_of_pos (not_le_zero htotal hpos)
  rw [hgini]
  have hq := near_share ha hb hsmall hpos ha (Nat.le_add_right a b)
  have hp := near_share ha hb hsmall hpos hb (Nat.le_add_left b a)
  generalize c.negative / c.total = q at hq ⊢
  generalize c.positive / c.total = p at hp ⊢
  generalize (a : ℚ) / (a + b) = x at hq hshares hlow ⊢
  generalize (b : ℚ) / (a + b) = y at hp hshares hlow ⊢
  have hpp := Binary64.near_mul hp.isFinite hp.isFinite hp.nonneg hp.le_one hp.nonneg hp.le_one
  have hqq := Binary64.near_mul hq.isFinite hq.isFinite hq.nonneg hq.le_one hq.nonneg hq.le_one
  have hs := Binary64.near_sub hone hpp.isFinite (by rw [toRat_one]; exact hpp.le_one)
    (by rw [toRat_one]; linarith [hpp.nonneg])
  rw [toRat_one] at hs
  have hsquares := squares_le hshares hp hq
  obtain ⟨hpp1, hpp2⟩ := abs_le.1 hpp.error
  obtain ⟨hqq1, hqq2⟩ := abs_le.1 hqq.error
  obtain ⟨hs1, hs2⟩ := abs_le.1 hs.error
  have hr := Binary64.near_sub hs.isFinite hqq.isFinite (by linarith)
    (by linarith [hs.le_one, hqq.nonneg])
  obtain ⟨hr1, -⟩ := abs_le.1 hr.error
  exact ⟨hr.isFinite, by linarith⟩

end Errors

/-- Two classes of rows that weigh little together are told apart. -/
theorem twelve_le_impurity {a b : ℕ} (ha : 0 < a) (hb : 0 < b) (hsmall : a + b ≤ 2 ^ 51) :
    12 / 2 ^ 54 ≤ 2 * ((a : ℚ) / (a + b)) * (b / (a + b)) := by
  have hproduct : a + b ≤ a * b + 1 := by
    obtain ⟨i, rfl⟩ : ∃ i, a = i + 1 := ⟨a - 1, by omega⟩
    obtain ⟨j, rfl⟩ : ∃ j, b = j + 1 := ⟨b - 1, by omega⟩
    nlinarith
  have hsquare : 12 * (a + b) * (a + b) ≤ 2 ^ 55 * (a * b) := by
    rcases le_or_gt 4 (a + b) with hlarge | hlittle
    · calc
        12 * (a + b) * (a + b) ≤ 12 * (a + b) * 2 ^ 51 := Nat.mul_le_mul_left _ hsmall
        _ ≤ 2 ^ 55 * (a * b) := by omega
    · have hle : a + b ≤ 3 := by omega
      calc
        12 * (a + b) * (a + b) ≤ 12 * 3 * 3 := by gcongr
        _ ≤ 2 ^ 55 * (a * b) := by omega
  have hsum : (0 : ℚ) < (a + b) * (a + b) := by positivity
  have hform : 2 * ((a : ℚ) / (a + b)) * (b / (a + b)) = 2 * (a * b) / ((a + b) * (a + b)) := by
    field_simp
  rw [hform, le_div_iff₀ hsum]
  have hsquare' : (12 : ℚ) * (a + b) * (a + b) ≤ 2 ^ 55 * (a * b) := by exact_mod_cast hsquare
  linarith

/-- Rows of two classes are not taken for pure if they weigh at most `2 ^ 51`. -/
theorem resolution_lt_gini (ha : IsWhole c.negative a) (hb : IsWhole c.positive b)
    (hapos : 0 < a) (hbpos : 0 < b) (hsmall : a + b ≤ 2 ^ 51) :
    ¬ c.gini ≤ Scalar.resolution := by
  have hlow := twelve_le_impurity hapos hbpos hsmall
  obtain ⟨hfinite, herror⟩ := le_toRat_gini ha hb (hsmall.trans (by decide)) (by omega)
    (le_trans (by norm_num) hlow)
  have hresolution : Binary64.isFinite (Scalar.resolution : Float) = true := by decide
  have hvalue : toRat (Scalar.resolution : Float) = 1 / 2 ^ 52 := by decide +kernel
  intro hle
  have hle' := (Binary64.le_iff_toRat_le hfinite hresolution).1 hle
  rw [hvalue] at hle'
  linarith

end LeadScoring.ClassCounts
