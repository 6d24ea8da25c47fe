import LeadScoring.Proofs.Attribution.Credits
import LeadScoring.Proofs.Scalar.Checked

/-!
# Paths without divisions by zero

The operations on a path divide by the number of its elements, by positions and by the fractions of
the element that they take off.  Over checked numbers they give what they give over rational ones
as long as the fractions of that element are not both zero, so that none of these divisors is zero.

Main results:

- Definition `ShapleyPath.checked`: a path over checked numbers.
- Theorems `ShapleyPath.checked_extend`, `ShapleyPath.checked_unwind`,
  `ShapleyPath.checked_unwoundSum`: the operations on it.
-/

namespace LeadScoring

open Checked (number)

/-- An element with checked fractions. -/
def PathElement.checked (e : PathElement ℚ) : PathElement Checked :=
  ⟨e.feature, number e.zeroFraction, number e.oneFraction⟩

namespace ShapleyPath

/-- A path with checked fractions and weights. -/
def checked (p : ShapleyPath ℚ) : ShapleyPath Checked :=
  ⟨p.elements.map PathElement.checked, p.weights.map number⟩

/-! ## Weights -/

section Weights

variable {zero one scale : ℚ} {depth : ℕ}

/-- Extending weights divides by the scale only. -/
theorem extendedWeights_checked (hscale : scale ≠ 0) (ws : List ℚ) :
    ∀ (i : ℕ) (carried : Option ℚ),
      extendedWeights (number zero) (number one) (number scale) depth i (carried.map number)
          (ws.map number) =
        (extendedWeights zero one scale depth i carried ws).map number := by
  induction ws with
  | nil =>
    intro i carried
    cases carried <;> rfl
  | cons w ws ih =>
    intro i carried
    have hrest := ih (i + 1) (some (one * w * ((i + 1 : ℕ) : ℚ) / scale))
    cases carried with
    | none =>
      simp only [extendedWeights, List.map_cons, Option.map_none, Checked.natCast_eq,
        Checked.mul_number, Checked.div_number hscale]
      exact congrArg _ hrest
    | some c =>
      simp only [extendedWeights, List.map_cons, Option.map_some, Checked.natCast_eq,
        Checked.mul_number, Checked.div_number hscale, Checked.add_number]
      exact congrArg _ hrest

/-- Unwinding weights divides by the scale and the one fraction only. -/
theorem unwoundWeights_checked (hscale : scale ≠ 0) (hone : one ≠ 0) :
    ∀ (i : ℕ) (next : ℚ) (ws : List ℚ),
      unwoundWeights (number zero) (number one) (number scale) depth i (number next)
          (ws.map number) =
        (unwoundWeights zero one scale depth i next ws).map number := by
  intro i
  induction i with
  | zero =>
    intro next ws
    cases ws <;> rfl
  | succ i ih =>
    intro next ws
    cases ws with
    | nil => rfl
    | cons w ws =>
      have hdivisor : ((i + 1 : ℕ) : ℚ) * one ≠ 0 := mul_ne_zero (by positivity) hone
      simp only [unwoundWeights, List.map_cons, Checked.natCast_eq, Checked.mul_number,
        Checked.div_number hdivisor, Checked.div_number hscale, Checked.sub_number]
      exact congrArg _ (ih _ ws)

/-- Rescaling weights divides by the zero fraction and by positions below the depth only. -/
theorem rescaledWeights_checked (hzero : zero ≠ 0) :
    ∀ i ≤ depth, ∀ ws : List ℚ,
      rescaledWeights (number zero) (number scale) depth i (ws.map number) =
        (rescaledWeights zero scale depth i ws).map number := by
  intro i
  induction i with
  | zero =>
    intro _ ws
    cases ws <;> rfl
  | succ i ih =>
    intro hi ws
    cases ws with
    | nil => rfl
    | cons w ws =>
      have hrest : ((depth - i : ℕ) : ℚ) ≠ 0 := by
        rw [Nat.cast_ne_zero]
        omega
      simp only [rescaledWeights, List.map_cons, Checked.natCast_eq, Checked.mul_number,
        Checked.div_number (mul_ne_zero hzero hrest)]
      exact congrArg _ (ih (by omega) ws)

/-- Summing weights up while they are unwound divides by the scale and the one fraction only. -/
theorem splitOffSum_checked (hscale : scale ≠ 0) (hone : one ≠ 0) :
    ∀ (i : ℕ) (next total : ℚ) (ws : List ℚ),
      splitOffSum (number zero) (number one) (number scale) depth i (number next) (number total)
          (ws.map number) =
        number (splitOffSum zero one scale depth i next total ws) := by
  intro i
  induction i with
  | zero =>
    intro next total ws
    cases ws <;> rfl
  | succ i ih =>
    intro next total ws
    cases ws with
    | nil => rfl
    | cons w ws =>
      have hdivisor : ((i + 1 : ℕ) : ℚ) * one ≠ 0 := mul_ne_zero (by positivity) hone
      simp only [splitOffSum, List.map_cons, Checked.natCast_eq, Checked.mul_number,
        Checked.div_number hdivisor, Checked.div_number hscale, Checked.sub_number,
        Checked.add_number]
      exact ih _ _ ws

/-- Summing rescaled weights up divides by the scale and by positions below the depth only. -/
theorem scaledBackSum_checked (hscale : scale ≠ 0) :
    ∀ i ≤ depth, ∀ (total : ℚ) (ws : List ℚ),
      scaledBackSum (number zero) (number scale) depth i (number total) (ws.map number) =
        number (scaledBackSum zero scale depth i total ws) := by
  intro i
  induction i with
  | zero =>
    intro _ total ws
    cases ws <;> rfl
  | succ i ih =>
    intro hi total ws
    cases ws with
    | nil => rfl
    | cons w ws =>
      have hrest : ((depth - i : ℕ) : ℚ) / scale ≠ 0 := by
        refine div_ne_zero ?_ hscale
        rw [Nat.cast_ne_zero]
        omega
      rw [List.map_cons, scaledBackSum, scaledBackSum]
      by_cases hzero : zero = 0
      · rw [if_neg (fun hne => Checked.bne_zero_iff.1 hne hzero),
          if_neg (fun hne => Exact.bne_zero_iff.1 hne hzero)]
        exact ih (by omega) total ws
      · rw [if_pos (Checked.bne_zero_iff.2 hzero), if_pos (Exact.bne_zero_iff.2 hzero)]
        simp only [Checked.natCast_eq, Checked.div_number hscale, Checked.div_number hzero,
          Checked.div_number hrest, Checked.add_number]
        exact ih (by omega) _ ws

end Weights

/-! ## Paths -/

section Paths

variable {p : ShapleyPath ℚ} {index : ℕ}

/-- A checked path has checked elements at the same positions. -/
theorem getElem?_checked (p : ShapleyPath ℚ) (index : ℕ) :
    p.checked.elements[index]? = p.elements[index]?.map PathElement.checked :=
  List.getElem?_map

/-- A checked path is as long as the path. -/
theorem length_checked (p : ShapleyPath ℚ) : p.checked.elements.length = p.elements.length :=
  List.length_map _

theorem reverse_checked (p : ShapleyPath ℚ) :
    p.checked.weights.reverse = p.weights.reverse.map number :=
  List.map_reverse.symm

/-- Extending a path divides by the number of its elements only. -/
theorem checked_extend (p : ShapleyPath ℚ) (feature : Option ℕ) (zero one : ℚ) :
    p.checked.extend feature (number zero) (number one) = (p.extend feature zero one).checked := by
  have hscale : ((p.elements.length + 1 : ℕ) : ℚ) ≠ 0 := by positivity
  simp only [extend, checked, List.map_append, List.length_map, Checked.natCast_eq]
  congr 1
  exact extendedWeights_checked hscale p.weights 0 none

/-- An element that the vector or some rows follow is taken off without a division by zero. -/
theorem checked_unwind
    (h : ∀ e, p.elements[index]? = some e → ¬ (e.zeroFraction = 0 ∧ e.oneFraction = 0)) :
    p.checked.unwind index = (p.unwind index).checked := by
  have hscale : ((p.elements.length - 1 + 1 : ℕ) : ℚ) ≠ 0 := by positivity
  rw [unwind, unwind, getElem?_checked, reverse_checked, length_checked]
  cases he : p.elements[index]? with
  | none => rfl
  | some e =>
    cases hweights : p.weights.reverse with
    | nil => rfl
    | cons last others =>
      simp only [Option.map_some, List.map_cons, PathElement.checked, Checked.natCast_eq]
      by_cases hone : e.oneFraction = 0
      · have hzero : e.zeroFraction ≠ 0 := fun hzero => h e he ⟨hzero, hone⟩
        rw [if_neg (fun hne => Checked.bne_zero_iff.1 hne hone),
          if_neg (fun hne => Exact.bne_zero_iff.1 hne hone),
          rescaledWeights_checked hzero _ le_rfl]
        simp only [checked, List.eraseIdx_map, List.map_reverse]
      · rw [if_pos (Checked.bne_zero_iff.2 hone), if_pos (Exact.bne_zero_iff.2 hone),
          unwoundWeights_checked hscale hone]
        simp only [checked, List.eraseIdx_map, List.map_reverse]

/-- The weights without an element are added up without a division by zero. -/
theorem checked_unwoundSum (p : ShapleyPath ℚ) (index : ℕ) :
    p.checked.unwoundSum index = number (p.unwoundSum index) := by
  have hscale : ((p.elements.length - 1 + 1 : ℕ) : ℚ) ≠ 0 := by positivity
  rw [unwoundSum, unwoundSum, getElem?_checked, reverse_checked, length_checked]
  cases he : p.elements[index]? with
  | none => rfl
  | some e =>
    cases hweights : p.weights.reverse with
    | nil => rfl
    | cons last others =>
      simp only [Option.map_some, List.map_cons, PathElement.checked, Checked.natCast_eq]
      by_cases hone : e.oneFraction = 0
      · rw [if_neg (fun hne => Checked.bne_zero_iff.1 hne hone),
          if_neg (fun hne => Exact.bne_zero_iff.1 hne hone)]
        exact scaledBackSum_checked hscale _ le_rfl 0 others
      · rw [if_pos (Checked.bne_zero_iff.2 hone), if_pos (Exact.bne_zero_iff.2 hone)]
        exact splitOffSum_checked hscale hone _ last 0 others

end Paths

end ShapleyPath

end LeadScoring
