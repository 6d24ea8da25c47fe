import LeadScoring.Proofs.Attribution.Consistency
import LeadScoring.Proofs.Forest.NodeCounts
import LeadScoring.Proofs.Forest.Training

/-!
# Drawn rows and their counts

A tree is fitted on all rows, or on as many rows as there are, drawn with replacement.  The weight
of a row is how often it was drawn, and rows that were not drawn take no part.  So exactly counted,
the weighted rows of a tree are the rows that were drawn.

Main results:

- Theorem `TrainingTable.of_countsOf`: exact counts are sums of weights.
- Definition `Forest.fittedRows`: the rows that a tree is fitted on, each as often as it was drawn.
- Theorem `Forest.weight_weightedTable`: the weight of a row.
- Theorem `Forest.of_countsOf_weightedRows`: the rows of a class are counted as often as they were
  drawn.
-/

namespace LeadScoring

/-! ## Exact counts -/

namespace TrainingTable

variable {t : TrainingTable ℚ} {rows : List ℕ} {label : Label}

/-- Exact counts are sums of weights. -/
theorem of_countsOf (t : TrainingTable ℚ) (rows : List ℕ) (label : Label) :
    (t.countsOf rows).of label =
      (rows.map fun row => if t.label row = label then t.weight row else 0).sum := by
  have hrun : ∀ c : ClassCounts ℚ, (rows.foldl t.addRow c).of label =
      c.of label + (rows.map fun row => if t.label row = label then t.weight row else 0).sum := by
    induction rows with
    | nil => simp
    | cons row rows ih =>
      intro c
      rw [List.foldl_cons, ih, of_addRow, List.map_cons, List.sum_cons]
      split_ifs
      · exact add_assoc _ _ _
      · rw [zero_add]
  have hzero : (ClassCounts.zero : ClassCounts ℚ).of label = 0 := by
    cases label <;> rfl
  rw [countsOf, hrun, hzero, zero_add]

/-- The rows on both sides of a test are counted as all rows. -/
theorem of_countsOf_filter_add (p : ℕ → Bool) (rows : List ℕ) (label : Label) :
    (t.countsOf (rows.filter p)).of label + (t.countsOf (rows.filter fun row => !p row)).of label =
      (t.countsOf rows).of label := by
  rw [of_countsOf, of_countsOf, of_countsOf, ← List.sum_append, ← List.map_append]
  exact ((List.filter_append_perm p rows).map _).sum_eq

/-- Weighted rows have positive weights. -/
theorem weight_pos_of_mem_weightedRows {row : ℕ} (h : row ∈ t.weightedRows) : 0 < t.weight row :=
  of_decide_eq_true (List.mem_filter.1 h).2

/-- Counts of rows whose weights are not negative are not negative. -/
theorem of_countsOf_nonneg (h : ∀ row ∈ rows, 0 ≤ t.weight row) (label : Label) :
    0 ≤ (t.countsOf rows).of label := by
  rw [of_countsOf]
  refine Exact.sum_map_nonneg fun row hrow => ?_
  split_ifs
  · exact h row hrow
  · exact le_refl 0

end TrainingTable

/-! ## Fitted rows -/

namespace Forest

/-- The rows that the tree of an index is fitted on, each as often as it was drawn. -/
def fittedRows (config : ForestConfig) (n index : ℕ) : List ℕ :=
  if config.bootstrap then
    (bootstrapDraws n n (Generator.ofSeed (treeSeed config.seed (UInt64.ofNat index)))).1
  else List.range n

/-- Rows are drawn from those that there are. -/
theorem lt_of_mem_bootstrapDraws {n k i : ℕ} (hn : 0 < n) {g : Generator}
    (h : i ∈ (bootstrapDraws n k g).1) : i < n := by
  induction k generalizing g with
  | zero => cases h
  | succ k ih =>
    rcases List.mem_cons.1 h with rfl | h
    · exact g.below_lt hn
    · exact ih h

/-- As many rows are drawn as were asked for. -/
theorem length_bootstrapDraws (n k : ℕ) (g : Generator) :
    (bootstrapDraws n k g).1.length = k := by
  induction k generalizing g with
  | zero => rfl
  | succ k ih => exact congrArg (· + 1) (ih (g.below n).2)

/-- A tree is fitted on as many rows as there are. -/
theorem length_fittedRows (config : ForestConfig) (n index : ℕ) :
    (fittedRows config n index).length = n := by
  unfold fittedRows
  split_ifs
  · exact length_bootstrapDraws n n _
  · exact List.length_range

/-- A tree is fitted on rows of the table. -/
theorem lt_of_mem_fittedRows {config : ForestConfig} {n index i : ℕ}
    (h : i ∈ fittedRows config n index) : i < n := by
  have hn : 0 < n := by
    rw [← length_fittedRows config n index]
    exact List.length_pos_of_mem h
  unfold fittedRows at h
  split_ifs at h
  · exact lt_of_mem_bootstrapDraws hn h
  · exact List.mem_range.1 h

/-- The weights count the draws. -/
theorem toList_drawCounts (n : ℕ) (draws : List ℕ) :
    (drawCounts n draws : Array ℚ).toList = (List.range n).map fun i => (draws.count i : ℚ) := by
  have hcredits : ∀ i, ShapleyPath.creditTo i (draws.map fun draw => (draw, (1 : ℚ))) =
      (draws.count i : ℚ) := by
    intro i
    induction draws with
    | nil => rfl
    | cons draw draws ih =>
      rw [List.map_cons, ShapleyPath.creditTo_cons, ih, List.count_cons]
      by_cases h : draw = i <;> simp [h, add_comm]
  have hfold := ShapleyPath.toList_foldl_modify (draws.map fun draw => (draw, (1 : ℚ))) n
  rw [List.foldl_map] at hfold
  simp only [hcredits] at hfold
  exact hfold

section Counts

variable {config : ForestConfig} {features : Array (Array ℚ)} {labels : Array Label}
  {index row : ℕ}

/-- A row weighs as much as it was drawn often. -/
theorem weight_weightedTable (hrow : row < features.size) :
    (weightedTable config features labels index).1.weight row =
      ((fittedRows config features.size index).count row : ℚ) := by
  have hweights : (weightedTable config features labels index).1.weights.toList =
      (List.range features.size).map fun i =>
        ((fittedRows config features.size index).count i : ℚ) := by
    change (rowWeights config features.size _ : Array ℚ × Generator).1.toList = _
    unfold rowWeights fittedRows
    split_ifs
    · exact toList_drawCounts _ _
    · have hone : ∀ i ∈ List.range features.size,
          ((List.range features.size).count i : ℚ) = 1 := fun i hi => by
        rw [List.count_eq_one_of_mem List.nodup_range hi, Nat.cast_one]
      rw [List.map_congr_left hone, Array.toList_replicate, List.map_const', List.length_range]
      rfl
  rw [TrainingTable.weight, Array.getD_eq_getD_getElem?, ← Array.getElem?_toList, hweights,
    List.getElem?_map, List.getElem?_range hrow]
  rfl

/-- Numbers below a bound are counted one by one. -/
theorem sum_count_eq_countP {n : ℕ} {draws : List ℕ} (h : ∀ i ∈ draws, i < n) (p : ℕ → Bool) :
    ∑ i ∈ Finset.range n, (if p i = true then (draws.count i : ℚ) else 0) =
      (draws.countP p : ℚ) := by
  induction draws with
  | nil => simp
  | cons draw draws ih =>
    rw [List.forall_mem_cons] at h
    have hterm : ∀ i, (if p i = true then ((draw :: draws).count i : ℚ) else 0) =
        (if p i = true then (draws.count i : ℚ) else 0) +
          if draw = i then (if p i = true then 1 else 0) else 0 := by
      intro i
      by_cases heq : draw = i <;> by_cases hp : p i = true <;> simp [heq, hp]
    simp only [hterm, Finset.sum_add_distrib, ih h.2, Finset.sum_ite_eq, Finset.mem_range,
      if_pos h.1, List.countP_cons]
    split_ifs <;> simp

/-- The rows of a class are counted as often as they were drawn. -/
theorem of_countsOf_weightedRows (hlabels : labels.size = features.size) (label : Label) :
    ((weightedTable config features labels index).1.countsOf
        (weightedTable config features labels index).1.weightedRows).of label =
      ((fittedRows config features.size index).countP fun row =>
        labels.getD row .negative = label : ℕ) := by
  rw [TrainingTable.of_countsOf, ← sum_count_eq_countP fun i => lt_of_mem_fittedRows]
  change ∑ i ∈ (Finset.range labels.size).filter _, _ = _
  rw [Finset.sum_filter_of_ne, hlabels]
  · refine Finset.sum_congr rfl fun i hi => ?_
    rw [weight_weightedTable (Finset.mem_range.1 hi)]
    simp only [decide_eq_true_eq]
    rfl
  · intro i hi hne
    rw [hlabels] at hi
    have hweight : (weightedTable config features labels index).1.weight i ≠ 0 := by
      intro hzero
      simp [hzero] at hne
    rw [weight_weightedTable (Finset.mem_range.1 hi)] at hweight ⊢
    exact lt_of_le_of_ne (Nat.cast_nonneg _) hweight.symm

end Counts

end Forest

end LeadScoring
