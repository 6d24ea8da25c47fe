import LeadScoring.Proofs.Forest.Mirrors

/-!
# Tables of selected rows

A table may be made of the rows of another one, in any order and each as often as one likes, with a
share of weight for each.  If the shares of the selected rows add up to the weights of the rows that
they were taken from, the selected rows stand for those, and the same tree is built from both tables.

Main results:

- Definition `TrainingTable.build?`: what building a tree returns.
- Definition `TrainingTable.select`: the table of selected rows.
- Definition `TrainingTable.SharesOut` and theorem `TrainingTable.SharesOut.mirrors`: shares that add
  up to the weights.
- Theorem `TrainingTable.Mirrors.exists_build?`: building returns the same from both tables.
- Theorem `TrainingTable.exists_build?_ne`: rows that are counted differently.
-/

namespace LeadScoring.TrainingTable

open Binary64 (IsWhole)

/-! ## Definitions -/

section Definitions

variable {α : Type} [Scalar α] (t : TrainingTable α)

/-- What building a tree returns: its arrays, the impurity decrease of each feature and the
generator afterwards. -/
def build? (config : TreeConfig) (g : Generator) :
    Option (FittedTree α × Array α × Generator) :=
  (t.grow? config g).map fun (grown, after) =>
    (.ofTree grown.tree, grown.decreases t.width, after)

/-- All rows have as many features as the first one, a label and a weight. -/
structure IsRectangular : Prop where
  labels_size : t.labels.size = t.features.size
  weights_size : t.weights.size = t.features.size
  width_eq : ∀ row < t.features.size, (t.vector row).size = t.width

/-- The table that consists of the given rows, each with a weight that depends on the row. -/
def select (order : List ℕ) (share : ℕ → α) : TrainingTable α where
  features := (order.map t.vector).toArray
  labels := (order.map t.label).toArray
  weights := (order.map share).toArray

/-- The row that a selected one was taken from. -/
def originIn (order : List ℕ) (i : ℕ) : ℕ :=
  order.getD i 0

/-- The selected rows that have a positive share. -/
def sharing (order : List ℕ) (share : ℕ → α) : List ℕ :=
  order.filter fun row => decide (0 < share row)

end Definitions

/-! ## Selected rows -/

section Select

variable {t : TrainingTable Float} {config : TreeConfig} {order part : List ℕ} {share : ℕ → Float}
  {w v : ℕ → ℕ} {label : Label} {i : ℕ}

/-- A selected row has the values of the row that it was taken from. -/
theorem value_select (hi : i < order.length) (feature : ℕ) :
    (t.select order share).value feature i = t.value feature (originIn order i) := by
  simp [value, select, originIn, vector, hi]

/-- A selected row has the label of the row that it was taken from. -/
theorem label_select (hi : i < order.length) :
    (t.select order share).label i = t.label (originIn order i) := by
  simp [label, select, originIn, hi]

/-- A selected row has the share of the row that it was taken from. -/
theorem weight_select (hi : i < order.length) :
    (t.select order share).weight i = share (originIn order i) := by
  simp [weight, select, originIn, hi]

theorem map_originIn_range (order : List ℕ) :
    (List.range order.length).map (originIn order) = order := by
  apply List.ext_getElem
  · simp
  · intro i hi hi'
    simp [originIn, hi']

theorem lt_length_of_mem_weightedRows (hi : i ∈ (t.select order share).weightedRows) :
    i < order.length := by
  have hrange := List.mem_range.1 (List.mem_filter.1 hi).1
  simpa [select] using hrange

/-- The selected rows that take part were taken from those that have a positive share. -/
theorem map_weightedRows_select :
    (t.select order share).weightedRows.map (originIn order) = sharing order share := by
  have hsize : (t.select order share).labels.size = order.length := by simp [select]
  rw [sharing, weightedRows, hsize]
  conv_rhs => rw [← map_originIn_range order, List.filter_map]
  congr 1
  apply List.filter_congr
  intro i hi
  rw [Function.comp, weight_select (List.mem_range.1 hi)]

/-- Selecting weighted rows commutes with filtering them. -/
theorem map_filter_weightedRows_select (p : ℕ → Bool) :
    ((t.select order share).weightedRows.filter (p ∘ originIn order)).map (originIn order) =
      (sharing order share).filter p := by
  rw [← map_weightedRows_select (t := t), List.filter_map]

/-- Selected rows weigh what the shares of their origins add up to. -/
theorem weightOf_select (hpart : ∀ i ∈ part, i < order.length) :
    (t.select order share).weightOf (v ∘ originIn order) label part =
      t.weightOf v label (part.map (originIn order)) := by
  rw [weightOf, weightOf, List.filter_map, List.map_map]
  congr 2
  apply List.filter_congr
  intro i hi
  rw [Function.comp, label_select (hpart i hi)]

/-- The selected rows of a class weigh as much as the shares of their origins. -/
theorem weightOf_filter_select (p : ℕ → Bool) :
    (t.select order share).weightOf (v ∘ originIn order) label
        ((t.select order share).weightedRows.filter (p ∘ originIn order)) =
      t.weightOf v label ((sharing order share).filter p) := by
  rw [weightOf_select fun i hi => lt_length_of_mem_weightedRows (List.mem_of_mem_filter hi),
    map_filter_weightedRows_select]

theorem hasFiniteFeatures_select (h : t.HasFiniteFeatures) (order : List ℕ)
    (share : ℕ → Float) : (t.select order share).HasFiniteFeatures := by
  intro entries hentries x hx
  obtain ⟨row, -, rfl⟩ : ∃ row ∈ order, t.vector row = entries := by simpa [select] using hentries
  unfold vector at hx
  rw [Array.getD_eq_getD_getElem?] at hx
  cases hrow : t.features[row]? with
  | none => simp [hrow] at hx
  | some found =>
    rw [hrow, Option.getD_some] at hx
    exact h found (Array.mem_toList_iff.2 (Array.mem_of_getElem? hrow)) x hx

/-- Selected rows of a rectangular table have as many features as its rows. -/
theorem IsRectangular.width_select (h : t.IsRectangular) (hne : order ≠ [])
    (horder : ∀ row ∈ order, row < t.features.size) : (t.select order share).width = t.width := by
  obtain ⟨row, rest, rfl⟩ := List.exists_cons_of_ne_nil hne
  rw [← h.width_eq row (horder row List.mem_cons_self)]
  rfl

/-! ## Shares -/

/-- The shares of the selected rows add up to the weights of the rows of the table. -/
structure SharesOut (t : TrainingTable Float) (order : List ℕ) (share : ℕ → Float)
    (w v : ℕ → ℕ) : Prop where
  whole : ∀ row ∈ sharing order share, IsWhole (share row) (v row)
  mem_iff : ∀ row, row ∈ t.weightedRows ↔ row ∈ sharing order share
  weightOf_eq : ∀ (p : ℕ → Bool) label, t.weightOf w label (t.weightedRows.filter p) =
    t.weightOf v label ((sharing order share).filter p)

/-- The shares of a class add up to its weight in the table. -/
theorem SharesOut.weightOf_all_eq (h : t.SharesOut order share w v) :
    t.weightOf w label t.weightedRows = t.weightOf v label (sharing order share) := by
  simpa using h.weightOf_eq (fun _ => true) label

/-- Shares of whole weights are weighed without loss below the limit. -/
theorem SharesOut.weighs (h : t.SharesOut order share w v) (ht : t.HasWholeWeights w) :
    (t.select order share).Weighs (v ∘ originIn order) (t.select order share).weightedRows := by
  have hwhole : ∀ i ∈ (t.select order share).weightedRows,
      IsWhole ((t.select order share).weight i) ((v ∘ originIn order) i) := by
    intro i hi
    rw [weight_select (lt_length_of_mem_weightedRows hi)]
    apply h.whole
    rw [← map_weightedRows_select (t := t)]
    exact List.mem_map_of_mem hi
  refine ⟨hwhole, fun i hi => weight_pos hi (hwhole i hi), fun label => ?_⟩
  rw [weightOf_select fun i hi => lt_length_of_mem_weightedRows hi, map_weightedRows_select,
    ← h.weightOf_all_eq]
  exact ht.small label

/-- Selected rows stand for the rows of the table if their shares add up to the weights and the
limits of growth are kept or broken by both. -/
theorem SharesOut.mirrors (h : t.SharesOut order share w v) (ht : t.HasWholeWeights w)
    (hleaf : ∀ p : ℕ → Bool, config.minSamplesLeaf ≤ (t.weightedRows.filter p).length ↔
      config.minSamplesLeaf ≤ ((sharing order share).filter p).length)
    (hfinal : ∀ (p : ℕ → Bool) depth,
      isFinal config depth (t.weightedRows.filter p).length
          (t.countsOf (t.weightedRows.filter p)) =
        isFinal config depth ((sharing order share).filter p).length
          (t.countsOf (t.weightedRows.filter p))) :
    t.Mirrors config (t.select order share) (originIn order) t.weightedRows
      (t.select order share).weightedRows := by
  have hweighs := h.weighs ht
  have hlength : ∀ p : ℕ → Bool,
      ((t.select order share).weightedRows.filter (p ∘ originIn order)).length =
        ((sharing order share).filter p).length := fun p => by
    rw [← map_filter_weightedRows_select (t := t), List.length_map]
  have hcounts : ∀ p : ℕ → Bool, t.countsOf (t.weightedRows.filter p) =
      (t.select order share).countsOf
        ((t.select order share).weightedRows.filter (p ∘ originIn order)) := by
    intro p
    refine (ht.weighs.filter p).countsOf_eq (hweighs.filter _) fun label => ?_
    rw [weightOf_filter_select, h.weightOf_eq]
  constructor
  · intro row
    rw [h.mem_iff, ← map_weightedRows_select (t := t), List.mem_map]
  · exact fun i hi feature => value_select (lt_length_of_mem_weightedRows hi) feature
  · exact ⟨w, ht.weighs⟩
  · exact ⟨_, hweighs⟩
  · exact hcounts
  · intro p
    rw [hlength, hleaf]
  · intro p depth
    rw [hlength, ← hcounts, hfinal]

end Select

/-! ## Building -/

section Build

variable {t u : TrainingTable Float} {config : TreeConfig} {origin : ℕ → ℕ} {w : ℕ → ℕ}
  {order : List ℕ}

/-- Building returns the same from tables whose rows stand for each other. -/
theorem Mirrors.exists_build? (h : t.Mirrors config u origin t.weightedRows u.weightedRows)
    (ht : t.HasFiniteFeatures) (hu : u.HasFiniteFeatures) (hwidth : u.width = t.width)
    (g : Generator) :
    ∃ result, t.build? config g = some result ∧ u.build? config g = some result := by
  obtain ⟨grown, after, hgrow, hother⟩ := h.exists_grow? ht hu hwidth.symm g
  refine ⟨(.ofTree grown.tree, grown.decreases t.width, after), ?_, ?_⟩
  · rw [build?, hgrow]
    rfl
  · rw [build?, hother, hwidth]
    rfl

theorem exists_build? (hfinite : t.HasFiniteFeatures) (config : TreeConfig) (g : Generator) :
    ∃ result, t.build? config g = some result := by
  obtain ⟨grown, after, hgrow⟩ := exists_grow? hfinite config g
  refine ⟨(.ofTree grown.tree, grown.decreases t.width, after), ?_⟩
  rw [build?, hgrow]
  rfl

/-- The first node that building returns has the counts of all rows that take part. -/
theorem root_of_build? {g : Generator} {result : FittedTree Float × Array Float × Generator}
    (h : t.build? config g = some result) :
    result.1.counts[0]? = some (t.countsOf t.weightedRows) := by
  obtain ⟨⟨grown, after⟩, hgrow, rfl⟩ := Option.map_eq_some_iff.1 h
  have hpos : 0 < (FittedTree.ofTree grown.tree).nodeCount := by
    rw [FittedTree.nodeCount_ofTree]
    exact grown.tree.size_pos
  have hsorts : t.Sorts t.weightedRows grown.tree := sorts_of_growFrom? hgrow
  rw [hsorts.countsPaths 0 hpos, rowsThrough_root]

/-- Building returns other arrays from rows that are counted differently. -/
theorem exists_build?_ne (ht : t.HasFiniteFeatures) (hu : u.HasFiniteFeatures)
    (hcounts : t.countsOf t.weightedRows ≠ u.countsOf u.weightedRows) (config : TreeConfig)
    (g : Generator) :
    ∃ result other, t.build? config g = some result ∧ u.build? config g = some other ∧
      result.1 ≠ other.1 := by
  obtain ⟨result, hresult⟩ := exists_build? ht config g
  obtain ⟨other, hother⟩ := exists_build? hu config g
  refine ⟨result, other, hresult, hother, fun heq => hcounts ?_⟩
  have hroot := root_of_build? hresult
  rw [heq, root_of_build? hother, Option.some.injEq] at hroot
  exact hroot.symm

end Build

end LeadScoring.TrainingTable
