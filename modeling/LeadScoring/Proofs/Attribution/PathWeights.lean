import LeadScoring.Attribution
import LeadScoring.Proofs.Attribution.Shapley
import LeadScoring.Proofs.Scalar.Exact

/-!
# Permutation weights of a path

The weights that a path keeps have a closed form: entry `k` is the coefficient of `X ^ k` in the
product of `zero + one * X` over the elements, times the share of the permutations in which `k`
given ones of them come first.  Extending the path multiplies the polynomial by one more factor, and
unwinding divides by one, so the order of the elements does not matter.

Main results:

- Definition `weightOf`: the closed form, with `weightOf_append` and `weightOf_perm`.
- Theorem `sum_weightOf`: the sum of all weights is an average over the unit interval.
- Theorems `extendedWeights_eq`, `unwoundWeights_eq`, `rescaledWeights_eq`: the list operations
  on weights in closed form.
-/

open Polynomial
open scoped Nat

namespace LeadScoring

/-! ## Elements as polynomials -/

namespace PathElement

/-- The factor that an element contributes to the coefficients of a path. -/
noncomputable def factor (e : PathElement ℚ) : ℚ[X] :=
  C e.zeroFraction + C e.oneFraction * X

/-- What an element is expected to be worth if its feature is present with probability `X`. -/
noncomputable def blend (e : PathElement ℚ) : ℚ[X] :=
  C e.zeroFraction * (1 - X) + C e.oneFraction * X

end PathElement

namespace ShapleyPath

/-- The product of the factors of elements. -/
noncomputable def polynomialOf (elements : List (PathElement ℚ)) : ℚ[X] :=
  (elements.map PathElement.factor).prod

/-- The weight of the coalitions of `k` features of a path. -/
noncomputable def weightOf (elements : List (PathElement ℚ)) (k : ℕ) : ℚ :=
  ((k ! * (elements.length - k)! : ℕ) / ((elements.length + 1)! : ℕ) : ℚ) *
    (polynomialOf elements).coeff k

variable {elements others : List (PathElement ℚ)} {e : PathElement ℚ}

theorem polynomialOf_cons :
    polynomialOf (e :: elements) = e.factor * polynomialOf elements :=
  List.prod_cons

theorem polynomialOf_append_singleton :
    polynomialOf (elements ++ [e]) = e.factor * polynomialOf elements := by
  simp [polynomialOf, mul_comm]

/-- Rows alone take the place of an element in the constant coefficient. -/
theorem coeff_zero_factor_mul (p : ℚ[X]) : (e.factor * p).coeff 0 = e.zeroFraction * p.coeff 0 := by
  simp [PathElement.factor, add_mul, mul_assoc]

/-- A set of one more feature comes about with the element or without it. -/
theorem coeff_succ_factor_mul (p : ℚ[X]) (k : ℕ) :
    (e.factor * p).coeff (k + 1) =
      e.zeroFraction * p.coeff (k + 1) + e.oneFraction * p.coeff k := by
  simp [PathElement.factor, add_mul, mul_assoc]

/-- There are no coalitions of more features than the path has. -/
theorem coeff_polynomialOf_of_lt {k : ℕ} (h : elements.length < k) :
    (polynomialOf elements).coeff k = 0 := by
  induction elements generalizing k with
  | nil =>
    have hne : k ≠ 0 := Nat.ne_of_gt h
    simp [polynomialOf, coeff_one, hne]
  | cons e elements ih =>
    rw [List.length_cons] at h
    obtain ⟨k, rfl⟩ : ∃ m, k = m + 1 := ⟨k - 1, by omega⟩
    rw [polynomialOf_cons, coeff_succ_factor_mul, ih (by omega), ih (by omega)]
    simp

/-- The order of the elements does not matter. -/
theorem weightOf_perm (h : elements.Perm others) : weightOf elements = weightOf others := by
  funext k
  rw [weightOf, weightOf, h.length_eq, polynomialOf, polynomialOf, (h.map _).prod_eq]

/-- The weights after one more element. -/
theorem weightOf_append {k : ℕ} (hk : k ≤ elements.length + 1) :
    weightOf (elements ++ [e]) k =
      e.zeroFraction * weightOf elements k * ((elements.length + 1 - k : ℕ) : ℚ) /
          ((elements.length + 1 + 1 : ℕ) : ℚ) +
        e.oneFraction * weightOf elements (k - 1) * (k : ℚ) /
          ((elements.length + 1 + 1 : ℕ) : ℚ) := by
  have hlength : (elements ++ [e]).length = elements.length + 1 := by simp
  have hbig : ((elements.length + 1 + 1)! : ℚ) =
      ((elements.length + 1 + 1 : ℕ) : ℚ) * ((elements.length + 1)! : ℚ) := by
    rw [Nat.factorial_succ, Nat.cast_mul]
  have hscale : ((elements.length + 1 + 1 : ℕ) : ℚ) ≠ 0 := by positivity
  have hfactorial : ((elements.length + 1)! : ℚ) ≠ 0 := by positivity
  -- Absent features: one permutation more for each of the remaining places.
  have hzero : ((elements.length + 1 - k)! : ℚ) * (polynomialOf elements).coeff k =
      ((elements.length - k)! : ℚ) * (polynomialOf elements).coeff k *
        ((elements.length + 1 - k : ℕ) : ℚ) := by
    rcases Nat.lt_or_ge elements.length k with hlt | hle
    · rw [coeff_polynomialOf_of_lt hlt]
      ring
    · rw [Nat.succ_sub hle, Nat.factorial_succ]
      push_cast
      ring
  simp only [weightOf, hlength, polynomialOf_append_singleton, hbig, Nat.cast_mul]
  cases k with
  | zero =>
    rw [coeff_zero_factor_mul]
    field_simp
    linear_combination e.zeroFraction * hzero
  | succ k =>
    rw [coeff_succ_factor_mul, Nat.add_sub_cancel]
    have hone : elements.length + 1 - (k + 1) = elements.length - k := by omega
    have hsucc : ((k + 1)! : ℚ) = ((k : ℚ) + 1) * (k ! : ℚ) := by
      rw [Nat.factorial_succ, Nat.cast_mul, Nat.cast_add_one]
    rw [hone] at hzero ⊢
    rw [hsucc]
    push_cast
    push_cast at hscale
    field_simp
    linear_combination e.zeroFraction * hzero

/-! ## The sum of the weights -/

/-- A product of blends in terms of the coefficients. -/
theorem prod_blend_eq (elements : List (PathElement ℚ)) :
    (elements.map PathElement.blend).prod =
      ∑ k ∈ Finset.range (elements.length + 1),
        C ((polynomialOf elements).coeff k) * (X ^ k * (1 - X) ^ (elements.length - k)) := by
  induction elements with
  | nil => simp [polynomialOf]
  | cons e elements ih =>
    have hzero : C e.zeroFraction * (1 - X) *
        (∑ k ∈ Finset.range (elements.length + 1),
          C ((polynomialOf elements).coeff k) * (X ^ k * (1 - X) ^ (elements.length - k))) =
        ∑ k ∈ Finset.range (elements.length + 2),
          C (e.zeroFraction * (polynomialOf elements).coeff k) *
            (X ^ k * (1 - X) ^ (elements.length + 1 - k)) := by
      rw [Finset.sum_range_succ _ (elements.length + 1),
        coeff_polynomialOf_of_lt (Nat.lt_succ_self _), mul_zero, C_0, zero_mul, add_zero,
        Finset.mul_sum]
      refine Finset.sum_congr rfl fun k hk => ?_
      have hle : k ≤ elements.length := Nat.lt_succ_iff.1 (Finset.mem_range.1 hk)
      rw [Nat.succ_sub hle, pow_succ, C_mul]
      ring
    have hone : C e.oneFraction * X *
        (∑ k ∈ Finset.range (elements.length + 1),
          C ((polynomialOf elements).coeff k) * (X ^ k * (1 - X) ^ (elements.length - k))) =
        ∑ k ∈ Finset.range (elements.length + 1),
          C (e.oneFraction * (polynomialOf elements).coeff k) *
            (X ^ (k + 1) * (1 - X) ^ (elements.length + 1 - (k + 1))) := by
      rw [Finset.mul_sum]
      refine Finset.sum_congr rfl fun k _ => ?_
      rw [Nat.add_sub_add_right, pow_succ, C_mul]
      ring
    rw [List.map_cons, List.prod_cons, ih, PathElement.blend, add_mul, hzero, hone,
      List.length_cons, polynomialOf_cons, Finset.sum_range_succ' _ (elements.length + 1),
      Finset.sum_range_succ' _ (elements.length + 1), coeff_zero_factor_mul, add_right_comm,
      ← Finset.sum_add_distrib]
    congr 1
    refine Finset.sum_congr rfl fun k _ => ?_
    rw [coeff_succ_factor_mul, C_add, add_mul]

/-- The sum of all weights is the average of what the elements are expected to be worth. -/
theorem sum_weightOf (elements : List (PathElement ℚ)) :
    ((List.range (elements.length + 1)).map (weightOf elements)).sum =
      unitAverage (elements.map PathElement.blend).prod := by
  have hsum : ((List.range (elements.length + 1)).map (weightOf elements)).sum =
      ∑ k ∈ Finset.range (elements.length + 1), weightOf elements k :=
    rfl
  rw [hsum, prod_blend_eq, map_sum]
  refine Finset.sum_congr rfl fun k hk => ?_
  have hk' : k + (elements.length - k) + 1 = elements.length + 1 := by
    have hlt := Finset.mem_range.1 hk
    omega
  rw [unitAverage_C_mul, unitAverage_pow_mul_pow, hk', weightOf, mul_comm]

/-! ## Lists of weights -/

section Lists

variable {zero one scale : ℚ} {depth : ℕ} {u w : ℕ → ℚ}

/-- Weights that arise from others by one more element. -/
def ExtendedBy (zero one scale : ℚ) (depth : ℕ) (u w : ℕ → ℚ) : Prop :=
  ∀ k ≤ depth, w k =
    zero * u k * ((depth - k : ℕ) : ℚ) / scale + one * u (k - 1) * (k : ℚ) / scale

/-- The last weight comes from the one before it alone. -/
theorem ExtendedBy.last (h : ExtendedBy zero one scale depth u w) :
    w depth = one * u (depth - 1) * (depth : ℚ) / scale := by
  rw [h depth (le_refl depth), Nat.sub_self, Nat.cast_zero, mul_zero, zero_div, zero_add]

/-- Extending the weights of a path computes the weights with one more element, position by
position. -/
theorem extendedWeights_range' (h : ExtendedBy zero one scale depth u w) :
    ∀ m i : ℕ, i + m = depth →
      extendedWeights zero one scale depth i (some (one * u (i - 1) * (i : ℚ) / scale))
        ((List.range' i m).map u) = (List.range' i (m + 1)).map w := by
  intro m
  induction m with
  | zero =>
    intro i hi
    obtain rfl : i = depth := hi
    simp [extendedWeights, h.last]
  | succ m ih =>
    intro i hi
    have hrest := ih (i + 1) (by omega)
    rw [Nat.add_sub_cancel] at hrest
    rw [List.range'_succ, List.range'_succ, List.map_cons, List.map_cons, extendedWeights, hrest,
      h i (by omega)]

/-- Extending a list of weights gives the list of the extended weights. -/
theorem extendedWeights_eq (h : ExtendedBy zero one scale depth u w) (hdepth : 0 < depth) :
    extendedWeights zero one scale depth 0 none ((List.range depth).map u) =
      (List.range (depth + 1)).map w := by
  obtain ⟨m, rfl⟩ : ∃ m, depth = m + 1 := ⟨depth - 1, by omega⟩
  have hrest := extendedWeights_range' h m 1 (by omega)
  have hfirst := h 0 (by omega)
  rw [Nat.cast_zero, mul_zero, zero_div, add_zero] at hfirst
  rw [List.range_eq_range', List.range_eq_range', List.range'_succ, List.range'_succ,
    List.map_cons, List.map_cons, extendedWeights, hfirst]
  exact congrArg _ hrest

/-- Splitting an element off a list of weights gives back the weights without it. -/
theorem unwoundWeights_eq (h : ExtendedBy zero one scale depth u w) (hone : one ≠ 0)
    (hscale : scale ≠ 0) :
    ∀ i ≤ depth,
      unwoundWeights zero one scale depth i (one * u (i - 1) * (i : ℚ) / scale)
        ((List.range i).map w).reverse = ((List.range i).map u).reverse := by
  intro i
  induction i with
  | zero =>
    intro _
    rfl
  | succ i ih =>
    intro hi
    have hpos : ((i + 1 : ℕ) : ℚ) ≠ 0 := by positivity
    have hshare : one * u i * ((i + 1 : ℕ) : ℚ) / scale * scale / (((i + 1 : ℕ) : ℚ) * one) =
        u i := by
      field_simp
    have hnext : w i - u i * zero * ((depth - i : ℕ) : ℚ) / scale =
        one * u (i - 1) * (i : ℚ) / scale := by
      rw [h i (by omega)]
      ring
    rw [List.range_succ, List.map_append, List.map_append, List.reverse_append,
      List.reverse_append]
    simp only [List.map_cons, List.map_nil, List.reverse_singleton, List.singleton_append,
      Nat.add_sub_cancel]
    rw [unwoundWeights, hshare, hnext, ih (by omega)]

/-- Scaling back undoes an element that the vector does not follow. -/
theorem rescaledWeights_eq (h : ExtendedBy zero 0 scale depth u w) (hzero : zero ≠ 0)
    (hscale : scale ≠ 0) :
    ∀ i ≤ depth,
      rescaledWeights zero scale depth i ((List.range i).map w).reverse =
        ((List.range i).map u).reverse := by
  intro i
  induction i with
  | zero =>
    intro _
    rfl
  | succ i ih =>
    intro hi
    have hpos : ((depth - i : ℕ) : ℚ) ≠ 0 := by
      rw [Nat.cast_ne_zero]
      omega
    have hback : w i * scale / (zero * ((depth - i : ℕ) : ℚ)) = u i := by
      rw [h i (by omega)]
      field_simp
      ring
    rw [List.range_succ, List.map_append, List.map_append, List.reverse_append,
      List.reverse_append]
    simp only [List.map_cons, List.map_nil, List.reverse_singleton, List.singleton_append]
    rw [rescaledWeights, hback, ih (by omega)]

/-- Summing up what is split off needs no list. -/
theorem splitOffSum_eq_sum (i : ℕ) (next total : ℚ) (ws : List ℚ) :
    splitOffSum zero one scale depth i next total ws =
      total + (unwoundWeights zero one scale depth i next ws).sum := by
  induction i generalizing next total ws with
  | zero => cases ws <;> simp [splitOffSum, unwoundWeights]
  | succ i ih =>
    cases ws with
    | nil => simp [splitOffSum, unwoundWeights]
    | cons weight ws =>
      rw [splitOffSum, unwoundWeights, ih, List.sum_cons, add_assoc]

/-- Rescaling weights while they are summed up gives the sum of the rescaled ones. -/
theorem scaledBackSum_eq_sum (hzero : zero ≠ 0) (i : ℕ) (total : ℚ) (ws : List ℚ) :
    scaledBackSum zero scale depth i total ws =
      total + (rescaledWeights zero scale depth i ws).sum := by
  induction i generalizing total ws with
  | zero => cases ws <;> simp [scaledBackSum, rescaledWeights]
  | succ i ih =>
    cases ws with
    | nil => simp [scaledBackSum, rescaledWeights]
    | cons weight ws =>
      have hterm : weight / zero / (((depth - i : ℕ) : ℚ) / scale) =
          weight * scale / (zero * ((depth - i : ℕ) : ℚ)) := by
        rw [div_div_eq_mul_div, div_mul_eq_mul_div, div_div]
      rw [scaledBackSum, rescaledWeights, ih, if_pos (Exact.bne_zero_iff.2 hzero), List.sum_cons,
        hterm, add_assoc]

end Lists

end ShapleyPath

end LeadScoring
