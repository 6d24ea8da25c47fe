import LeadScoring.Proofs.Forest.Selection

/-!
# The order of the rows does not matter

Sorting keeps rows of one value in the order in which they were given, and counts are summed up in
that order.  Neither of this shows in the tree: no cut is made between rows of one value, and sums of
whole weights up to `2 ^ 53` are exact.  Beyond that a sum depends on the order of its terms, and so
do the counts of the nodes and the impurity decreases.

Main results:

- Definition `TrainingTable.reordered`: a table with its rows in another order.
- Theorem `TrainingTable.build?_reordered`: building returns the same from both.
- Theorem `TrainingTable.build?_reordered_heavyRows`: weights beyond `2 ^ 53` whose order matters.
-/

namespace LeadScoring.TrainingTable

open Binary64 (IsWhole)

/-- The table with its rows, labels and weights in another order. -/
def reordered {α : Type} [Scalar α] (t : TrainingTable α) (order : List ℕ) : TrainingTable α :=
  t.select order t.weight

variable {t : TrainingTable Float} {order : List ℕ}

/-- In another order the same rows take part. -/
theorem IsRectangular.sharing_perm (h : t.IsRectangular)
    (horder : order.Perm (List.range t.features.size)) :
    (sharing order t.weight).Perm t.weightedRows := by
  rw [weightedRows, h.labels_size]
  exact horder.filter _

/-- Rows in another order have the same features. -/
theorem IsRectangular.width_reordered (h : t.IsRectangular)
    (horder : order.Perm (List.range t.features.size)) : (t.reordered order).width = t.width := by
  rcases eq_or_ne order [] with rfl | hne
  · have hnone : t.features.size = 0 := by simpa using horder.length_eq.symm
    have hfirst : t.features[0]? = none := Array.getElem?_eq_none hnone.le
    rw [width, width, hfirst]
    rfl
  · exact h.width_select hne fun row hrow => List.mem_range.1 (horder.mem_iff.1 hrow)

/-- The order of the rows does not matter.  From every rectangular table of finite features and whole
weights, of which no class weighs more than `2 ^ 53`, building returns the same arrays, the same
impurity decreases and the same generator as from the table in which rows, labels and weights are
put in another order. -/
theorem build?_reordered (t : TrainingTable Float) (hrect : t.IsRectangular)
    (hfinite : t.HasFiniteFeatures) (w : ℕ → ℕ) (hweights : t.HasWholeWeights w) (order : List ℕ)
    (horder : order.Perm (List.range t.features.size)) (config : TreeConfig) (g : Generator) :
    ∃ result, t.build? config g = some result ∧
      (t.reordered order).build? config g = some result := by
  have hperm := hrect.sharing_perm horder
  have hshares : t.SharesOut order t.weight w w := by
    constructor
    · exact fun row hrow => hweights.whole row (hperm.mem_iff.1 hrow)
    · exact fun row => hperm.mem_iff.symm
    · exact fun p label => (weightOf_perm (hperm.filter p)).symm
  have hmirrors : t.Mirrors config (t.reordered order) (originIn order) t.weightedRows
      (t.reordered order).weightedRows :=
    hshares.mirrors hweights (fun p => by rw [(hperm.filter p).length_eq])
      fun p depth => by rw [(hperm.filter p).length_eq]
  exact hmirrors.exists_build? hfinite (hasFiniteFeatures_select hfinite order t.weight)
    (hrect.width_reordered horder) g

/-- Four rows with extreme values and weights, and the same rows in another order. -/
theorem build?_reordered_extremeRows :
    extremeRows.IsRectangular ∧ extremeRows.HasFiniteFeatures ∧
      extremeRows.HasWholeWeights extremeWeights ∧
      [3, 1, 0, 2].Perm (List.range extremeRows.features.size) ∧
      ∃ result, extremeRows.build? { maxFeatures := .all } (Generator.ofSeed 1) = some result ∧
        (extremeRows.reordered [3, 1, 0, 2]).build? { maxFeatures := .all } (Generator.ofSeed 1) =
          some result := by
  have hrect : extremeRows.IsRectangular := ⟨rfl, rfl, by decide⟩
  have hfinite : extremeRows.HasFiniteFeatures := by decide +kernel
  have hweights : extremeRows.HasWholeWeights extremeWeights := by
    constructor
    · decide +kernel
    · intro label
      cases label <;> decide +kernel
  have horder : [3, 1, 0, 2].Perm (List.range extremeRows.features.size) := by decide
  exact ⟨hrect, hfinite, hweights, horder, build?_reordered extremeRows hrect hfinite
    extremeWeights hweights [3, 1, 0, 2] horder { maxFeatures := .all } (Generator.ofSeed 1)⟩

/-- Two weights of one are lost beside a weight of `2 ^ 53` unless they come first, so the first node
has other counts after the rows have been put in another order. -/
theorem build?_reordered_heavyRows :
    heavyRows.IsRectangular ∧ heavyRows.HasFiniteFeatures ∧
      (∀ row < heavyRows.features.size, IsWhole (heavyRows.weight row) (heavyWeights row)) ∧
      [1, 2, 0, 3].Perm (List.range heavyRows.features.size) ∧
      ∃ result other,
        heavyRows.build? { maxFeatures := .all } (Generator.ofSeed 1) = some result ∧
        (heavyRows.reordered [1, 2, 0, 3]).build? { maxFeatures := .all } (Generator.ofSeed 1) =
          some other ∧ result.1 ≠ other.1 := by
  have hfinite : heavyRows.HasFiniteFeatures := by decide
  have hlost : IsWhole (heavyRows.countsOf heavyRows.weightedRows).negative (2 ^ 53) := by
    decide +kernel
  have hkept : ¬ IsWhole ((heavyRows.reordered [1, 2, 0, 3]).countsOf
      (heavyRows.reordered [1, 2, 0, 3]).weightedRows).negative (2 ^ 53) := by
    decide +kernel
  exact ⟨⟨rfl, rfl, by decide⟩, hfinite, by decide +kernel, by decide,
    exists_build?_ne hfinite (hasFiniteFeatures_select hfinite [1, 2, 0, 3] heavyRows.weight)
      (fun heq => hkept (heq ▸ hlost)) { maxFeatures := .all } (Generator.ofSeed 1)⟩

end LeadScoring.TrainingTable
