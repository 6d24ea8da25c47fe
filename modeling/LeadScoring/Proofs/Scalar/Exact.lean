import LeadScoring.Scalar
import Mathlib

/-!
# Exact arithmetic

Over rational numbers the operations of `Scalar` are those of the field.  The numerals and the sums
are written differently, so this module restates them.

Main results:

- Theorems `Exact.zero_eq`, `Exact.one_eq`: the numerals.
- Theorems `Exact.foldl_add_eq`, `Exact.sum_eq`, `Exact.mean_eq`: sums from left to right are sums.
- Theorems `Exact.sum_map_nonneg`, `Exact.sum_map_eq_zero_iff`: sums of numbers that are not negative.
- Theorem `Exact.mean_mem_unit`: the mean of probabilities is a probability.
-/

namespace LeadScoring.Exact

@[simp]
theorem zero_eq : @OfNat.ofNat ℚ 0 (@Zero.toOfNat0 ℚ Scalar.toZero) = 0 :=
  rfl

@[simp]
theorem one_eq : @OfNat.ofNat ℚ 1 (@One.toOfNat1 ℚ Scalar.toOne) = 1 :=
  rfl

theorem half_eq : @OfScientific.ofScientific ℚ Scalar.toOfScientific 5 true 1 = 1 / 2 := by
  norm_num

@[simp]
theorem isFinite_eq (x : ℚ) : Scalar.isFinite x = true :=
  rfl

/-- Two values are tested for zero. -/
theorem both_beq_zero_iff {x y : ℚ} :
    (@BEq.beq ℚ Scalar.toBEq x (@OfNat.ofNat ℚ 0 (@Zero.toOfNat0 ℚ Scalar.toZero)) &&
        @BEq.beq ℚ Scalar.toBEq y (@OfNat.ofNat ℚ 0 (@Zero.toOfNat0 ℚ Scalar.toZero))) = true ↔
      x = 0 ∧ y = 0 := by
  rw [Bool.and_eq_true]
  exact and_congr beq_iff_eq beq_iff_eq

theorem bne_zero_iff {x : ℚ} :
    @bne ℚ Scalar.toBEq x (@OfNat.ofNat ℚ 0 (@Zero.toOfNat0 ℚ Scalar.toZero)) = true ↔ x ≠ 0 :=
  bne_iff_ne

/-- The order of the sum does not matter. -/
theorem foldl_add_eq (xs : List ℚ) (start : ℚ) :
    xs.foldl (fun x y => @HAdd.hAdd ℚ ℚ ℚ (@instHAdd ℚ Scalar.toAdd) x y) start =
      start + xs.sum := by
  induction xs generalizing start with
  | nil => simp
  | cons x xs ih =>
    rw [List.foldl_cons, ih, List.sum_cons]
    exact add_assoc start x xs.sum

theorem sum_eq (xs : List ℚ) : Scalar.sum xs = xs.sum := by
  have hstart : (Scalar.sumStart : ℚ) = 0 := rfl
  rw [Scalar.sum, foldl_add_eq, hstart, zero_add]

theorem mean_eq (xs : List ℚ) : Scalar.mean xs = xs.sum / (xs.length : ℚ) := by
  rw [Scalar.mean, sum_eq]

theorem sum_map_nonneg {β : Type} {xs : List β} {f : β → ℚ} (h : ∀ x ∈ xs, 0 ≤ f x) :
    0 ≤ (xs.map f).sum := by
  refine List.sum_nonneg fun y hy => ?_
  obtain ⟨x, hx, rfl⟩ := List.mem_map.1 hy
  exact h x hx

/-- Numbers that are not negative sum to zero only if all of them are zero. -/
theorem sum_map_eq_zero_iff {β : Type} {xs : List β} {f : β → ℚ} (h : ∀ x ∈ xs, 0 ≤ f x) :
    (xs.map f).sum = 0 ↔ ∀ x ∈ xs, f x = 0 := by
  constructor
  · intro hzero x hx
    refine List.all_zero_of_le_zero_le_of_sum_eq_zero (fun y hy => ?_) hzero
      (List.mem_map_of_mem hx)
    obtain ⟨other, hother, rfl⟩ := List.mem_map.1 hy
    exact h other hother
  · intro hall
    refine List.sum_eq_zero fun y hy => ?_
    obtain ⟨x, hx, rfl⟩ := List.mem_map.1 hy
    exact hall x hx

/-- The mean of numbers between zero and one lies there too; that of no numbers is zero. -/
theorem mean_mem_unit {xs : List ℚ} (h : ∀ x ∈ xs, 0 ≤ x ∧ x ≤ 1) :
    0 ≤ Scalar.mean xs ∧ Scalar.mean xs ≤ 1 := by
  have hlow : 0 ≤ xs.sum := List.sum_nonneg fun x hx => (h x hx).1
  have hhigh : xs.sum ≤ xs.length • (1 : ℚ) := List.sum_le_card_nsmul xs 1 fun x hx => (h x hx).2
  rw [nsmul_eq_mul, mul_one] at hhigh
  rw [mean_eq]
  exact ⟨div_nonneg hlow (Nat.cast_nonneg xs.length), div_le_one_of_le₀ hhigh (Nat.cast_nonneg _)⟩

end LeadScoring.Exact
