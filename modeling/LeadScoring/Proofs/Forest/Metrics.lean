import LeadScoring.Forest.Metrics
import LeadScoring.Proofs.Scalar.Exact

/-!
# Accuracy

The accuracy of a forest on labelled rows is the share of rows whose label it predicts.

Main results:

- Theorem `Forest.accuracy_mul_length`: the accuracy counts the rows that are classified correctly.
- Theorem `Forest.accuracy_mem_unit`: it lies between zero and one.
-/

namespace LeadScoring.Forest

/-- Whether a forest predicts the label of a row. -/
def classifies {α : Type} [Scalar α] (f : Forest α) (row : Array α × Label) : Bool :=
  f.predictLabel row.1 == row.2

variable (f : Forest ℚ) (rows : List (Array ℚ × Label))

/-- The accuracy is the number of rows that are classified correctly over the number of rows. -/
theorem accuracy_eq :
    f.accuracy (rows.map (·.1)) (rows.map (·.2)) = (rows.countP f.classifies : ℚ) / rows.length := by
  cases rows with
  | nil => rw [List.length_nil, Nat.cast_zero, div_zero]; rfl
  | cons row rows =>
    have hcount : (((row :: rows).map (·.1)).zip ((row :: rows).map (·.2))).countP
        (fun (features, label) => f.predictLabel features == label) =
          (row :: rows).countP f.classifies := by
      rw [List.zip_map', List.countP_map]
      rfl
    rw [accuracy, if_neg (by simp), hcount, List.length_map]

/-- The accuracy times the number of rows counts the rows that are classified correctly. -/
theorem accuracy_mul_length :
    f.accuracy (rows.map (·.1)) (rows.map (·.2)) * rows.length = rows.countP f.classifies := by
  rw [accuracy_eq]
  cases rows with
  | nil => simp
  | cons row rows => exact div_mul_cancel₀ _ (by simp; positivity)

/-- Accuracies are shares. -/
theorem accuracy_mem_unit :
    0 ≤ f.accuracy (rows.map (·.1)) (rows.map (·.2)) ∧
      f.accuracy (rows.map (·.1)) (rows.map (·.2)) ≤ 1 := by
  have hcount : (rows.countP f.classifies : ℚ) ≤ rows.length :=
    Nat.cast_le.2 List.countP_le_length
  rw [accuracy_eq]
  exact ⟨by positivity, div_le_one_of_le₀ hcount (Nat.cast_nonneg _)⟩

end LeadScoring.Forest
