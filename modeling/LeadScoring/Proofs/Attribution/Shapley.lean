import Mathlib

/-!
# Shapley values

In a game every coalition of players has a worth.  The Shapley value of a player is the mean of
what the player adds to the coalition of those before it, over all orders of the players.  This
module writes the value as an average over the unit interval: if every other player joins with the
same probability, the expected addition is a polynomial in that probability, and its average is the
Shapley value.

Main results:

- Definition `shapleyValue`, the sum over all coalitions.
- Theorem `shapleyValue_eq_unitAverage`: the average of the expected addition.
- Theorem `shapleyValue_of_null`: a player that adds nothing has the value zero.
- Theorem `sum_shapleyValue`: the values of all players sum up to the worth of all of them.
-/

open Polynomial
open scoped Nat

namespace LeadScoring

/-- The Shapley value of a player in a game whose players are the numbers below `n`. -/
def shapleyValue (n : ℕ) (game : Finset ℕ → ℚ) (player : ℕ) : ℚ :=
  ∑ S ∈ ((Finset.range n).erase player).powerset,
    ((S.card ! * (n - 1 - S.card)! : ℕ) / (n ! : ℕ) : ℚ) * (game (insert player S) - game S)

/-! ## Averages over the unit interval -/

/-- The average of a polynomial over the unit interval. -/
noncomputable def unitAverage : ℚ[X] →ₗ[ℚ] ℚ :=
  Polynomial.lsum fun m => (1 / (m + 1) : ℚ) • LinearMap.id

/-- The average of a power over the unit interval. -/
theorem unitAverage_monomial (m : ℕ) (a : ℚ) : unitAverage (monomial m a) = a / (m + 1) := by
  rw [unitAverage, Polynomial.lsum_apply, Polynomial.sum_monomial_index _ _ (by simp)]
  simp only [LinearMap.smul_apply, LinearMap.id_apply, smul_eq_mul]
  ring

/-- Averages are linear in a constant factor. -/
theorem unitAverage_C_mul (a : ℚ) (p : ℚ[X]) : unitAverage (C a * p) = a * unitAverage p := by
  rw [← smul_eq_C_mul, map_smul, smul_eq_mul]

/-- Averaging undoes taking derivatives. -/
theorem unitAverage_derivative (p : ℚ[X]) :
    unitAverage (derivative p) = p.eval 1 - p.eval 0 := by
  induction p using Polynomial.induction_on' with
  | add p q hp hq =>
    rw [derivative_add, map_add, hp, hq, eval_add, eval_add]
    ring
  | monomial m a =>
    rw [derivative_monomial, unitAverage_monomial, eval_monomial, eval_monomial]
    cases m with
    | zero => simp
    | succ m =>
      have hpos : (m : ℚ) + 1 ≠ 0 := by positivity
      rw [Nat.add_sub_cancel, Nat.cast_add_one, mul_div_assoc, div_self hpos]
      simp

/-- The average of `X ^ i * (1 - X) ^ j`. -/
theorem unitAverage_pow_mul_pow (i j : ℕ) :
    unitAverage (X ^ i * (1 - X) ^ j) = ((i ! * j ! : ℕ) / ((i + j + 1)! : ℕ) : ℚ) := by
  induction j generalizing i with
  | zero =>
    have hpos : (i ! : ℚ) ≠ 0 := by positivity
    rw [pow_zero, mul_one, X_pow_eq_monomial, unitAverage_monomial, Nat.add_zero,
      Nat.factorial_succ]
    push_cast
    rw [Nat.factorial_zero, Nat.cast_one, mul_one]
    field_simp
  | succ j ih =>
    have hsplit : (X ^ i * (1 - X) ^ (j + 1) : ℚ[X]) =
        X ^ i * (1 - X) ^ j - X ^ (i + 1) * (1 - X) ^ j := by
      ring
    have hsum : ((i + (j + 1) + 1)! : ℚ) = (i + j + 2 : ℚ) * ((i + j + 1)! : ℚ) := by
      rw [← Nat.add_assoc, Nat.factorial_succ]
      push_cast
      ring
    have hshift : ((i + 1 + j + 1)! : ℚ) = (i + j + 2 : ℚ) * ((i + j + 1)! : ℚ) := by
      rw [show i + 1 + j + 1 = (i + j + 1) + 1 by ring, Nat.factorial_succ]
      push_cast
      ring
    have hpos : ((i + j + 1)! : ℚ) ≠ 0 := by positivity
    have hpos' : (i + j + 2 : ℚ) ≠ 0 := by positivity
    rw [hsplit, map_sub, ih, ih, hsum, hshift]
    push_cast [Nat.factorial_succ]
    field_simp
    ring

/-! ## Random coalitions -/

/-- The expected worth of a coalition that each of the given players joins with probability `X`. -/
noncomputable def expectedWorth (players : Finset ℕ) (game : Finset ℕ → ℚ) : ℚ[X] :=
  ∑ S ∈ players.powerset, C (game S) * (X ^ S.card * (1 - X) ^ (players.card - S.card))

/-- Without players a game is worth what it is worth without them. -/
theorem expectedWorth_empty (game : Finset ℕ → ℚ) : expectedWorth ∅ game = C (game ∅) := by
  simp [expectedWorth]

/-- One player more either stays away or joins. -/
theorem expectedWorth_insert {players : Finset ℕ} {player : ℕ} (hnew : player ∉ players)
    (game : Finset ℕ → ℚ) :
    expectedWorth (insert player players) game =
      (1 - X) * expectedWorth players game +
        X * expectedWorth players fun S => game (insert player S) := by
  rw [expectedWorth, Finset.sum_powerset_insert hnew, Finset.card_insert_of_notMem hnew]
  simp only [expectedWorth, Finset.mul_sum]
  refine congrArg₂ (· + ·) ?_ ?_
  · refine Finset.sum_congr rfl fun S hS => ?_
    have hcard : S.card ≤ players.card := Finset.card_le_card (Finset.mem_powerset.1 hS)
    rw [Nat.succ_sub hcard, pow_succ]
    ring
  · refine Finset.sum_congr rfl fun S hS => ?_
    have hplayer : player ∉ S := fun hmem => hnew (Finset.mem_powerset.1 hS hmem)
    rw [Finset.card_insert_of_notMem hplayer, Nat.add_sub_add_right, pow_succ]
    ring

/-- The expected worth of a difference of games is that of their worths. -/
theorem expectedWorth_sub (players : Finset ℕ) (game other : Finset ℕ → ℚ) :
    expectedWorth players (fun S => game S - other S) =
      expectedWorth players game - expectedWorth players other := by
  simp only [expectedWorth, ← Finset.sum_sub_distrib]
  refine Finset.sum_congr rfl fun S _ => ?_
  rw [C_sub, sub_mul]

/-- The expected worth depends on the coalitions of its players only. -/
theorem expectedWorth_congr {players : Finset ℕ} {game other : Finset ℕ → ℚ}
    (h : ∀ S ⊆ players, game S = other S) :
    expectedWorth players game = expectedWorth players other := by
  rw [expectedWorth, expectedWorth]
  refine Finset.sum_congr rfl fun S hS => ?_
  rw [h S (Finset.mem_powerset.1 hS)]

/-- A constant factor of a game is one of its expected worth. -/
theorem expectedWorth_const_mul (players : Finset ℕ) (a : ℚ) (game : Finset ℕ → ℚ) :
    expectedWorth players (fun S => a * game S) = C a * expectedWorth players game := by
  rw [expectedWorth, expectedWorth, Finset.mul_sum]
  refine Finset.sum_congr rfl fun S _ => ?_
  rw [C_mul, mul_assoc]

/-- The probabilities of all coalitions sum up to one. -/
theorem expectedWorth_one (players : Finset ℕ) : expectedWorth players (fun _ => 1) = 1 := by
  induction players using Finset.induction_on with
  | empty => simp [expectedWorth]
  | insert player players hnew ih =>
    rw [expectedWorth_insert hnew, ih]
    ring

/-- The coalition that is certain to be joined by everyone. -/
theorem eval_one_expectedWorth (players : Finset ℕ) (game : Finset ℕ → ℚ) :
    (expectedWorth players game).eval 1 = game players := by
  induction players using Finset.induction_on generalizing game with
  | empty => simp [expectedWorth_empty]
  | insert player players hnew ih => simp [expectedWorth_insert hnew, ih]

/-- If nobody joins, the expected worth is that of the empty coalition. -/
theorem eval_zero_expectedWorth (players : Finset ℕ) (game : Finset ℕ → ℚ) :
    (expectedWorth players game).eval 0 = game ∅ := by
  induction players using Finset.induction_on generalizing game with
  | empty => simp [expectedWorth_empty]
  | insert player players hnew ih => simp [expectedWorth_insert hnew, ih]

/-- The expected worth grows with the probability as fast as the players add to it. -/
theorem derivative_expectedWorth (players : Finset ℕ) (game : Finset ℕ → ℚ) :
    derivative (expectedWorth players game) =
      ∑ i ∈ players, expectedWorth (players.erase i) fun S => game (insert i S) - game S := by
  induction players using Finset.induction_on generalizing game with
  | empty => simp [expectedWorth_empty]
  | insert player players hnew ih =>
    have hothers : ∀ i ∈ players,
        expectedWorth ((insert player players).erase i) (fun S => game (insert i S) - game S) =
          (1 - X) * expectedWorth (players.erase i) (fun S => game (insert i S) - game S) +
            X * expectedWorth (players.erase i) fun S =>
              game (insert player (insert i S)) - game (insert player S) := by
      intro i hi
      have hne : player ≠ i := fun heq => hnew (heq ▸ hi)
      have hnew' : player ∉ players.erase i := fun hmem => hnew (Finset.mem_of_mem_erase hmem)
      rw [Finset.erase_insert_of_ne hne, expectedWorth_insert hnew']
      simp only [Finset.insert_comm i player]
    rw [Finset.sum_insert hnew, Finset.erase_insert hnew, Finset.sum_congr rfl hothers,
      Finset.sum_add_distrib, ← Finset.mul_sum, ← Finset.mul_sum, ← ih game,
      ← ih fun S => game (insert player S), expectedWorth_insert hnew, expectedWorth_sub]
    simp only [derivative_add, derivative_mul, derivative_sub, derivative_one, derivative_X]
    ring

/-! ## The Shapley value -/

section Value

variable {n player : ℕ}

/-- The Shapley value is the average of what the player is expected to add. -/
theorem shapleyValue_eq_unitAverage (hplayer : player < n) (game : Finset ℕ → ℚ) :
    shapleyValue n game player =
      unitAverage (expectedWorth ((Finset.range n).erase player)
        fun S => game (insert player S) - game S) := by
  have hcard : ((Finset.range n).erase player).card = n - 1 := by
    rw [Finset.card_erase_of_mem (Finset.mem_range.2 hplayer), Finset.card_range]
  rw [expectedWorth, map_sum, shapleyValue]
  refine Finset.sum_congr rfl fun S hS => ?_
  have hle : S.card ≤ n - 1 := hcard ▸ Finset.card_le_card (Finset.mem_powerset.1 hS)
  have hn : S.card + (n - 1 - S.card) + 1 = n := by omega
  rw [unitAverage_C_mul, unitAverage_pow_mul_pow, hcard, hn, mul_comm]

/-- The value of a sum of games is the sum of the values. -/
theorem shapleyValue_add (game other : Finset ℕ → ℚ) :
    shapleyValue n (fun S => game S + other S) player =
      shapleyValue n game player + shapleyValue n other player := by
  simp only [shapleyValue, ← Finset.sum_add_distrib]
  refine Finset.sum_congr rfl fun S _ => ?_
  ring

/-- A player that adds nothing to any coalition has the value zero. -/
theorem shapleyValue_of_null {game : Finset ℕ → ℚ} (h : ∀ S, game (insert player S) = game S) :
    shapleyValue n game player = 0 := by
  rw [shapleyValue]
  refine Finset.sum_eq_zero fun S _ => ?_
  rw [h, sub_self, mul_zero]

/-- The values of all players sum up to what all of them are worth more than nobody. -/
theorem sum_shapleyValue (n : ℕ) (game : Finset ℕ → ℚ) :
    ∑ i ∈ Finset.range n, shapleyValue n game i = game (Finset.range n) - game ∅ := by
  have haverage : ∀ i ∈ Finset.range n, shapleyValue n game i =
      unitAverage (expectedWorth ((Finset.range n).erase i)
        fun S => game (insert i S) - game S) :=
    fun i hi => shapleyValue_eq_unitAverage (Finset.mem_range.1 hi) game
  rw [Finset.sum_congr rfl haverage, ← map_sum, ← derivative_expectedWorth,
    unitAverage_derivative, eval_one_expectedWorth, eval_zero_expectedWorth]

end Value

end LeadScoring
