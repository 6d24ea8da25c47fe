import LeadScoring.Proofs.Forest.Impurity
import LeadScoring.Proofs.Forest.Limits

/-!
# Where growth without a greatest depth ends

Without a greatest depth growth goes on until the rows of a node are of one class, too few to be
split, or not to be cut into two parts that are large enough for leaves.  It also ends earlier: at
rows that can be cut while no cut lowers the impurity, as it is computed, by more than the gap
between one and the next double, and at rows of so great a weight that an impurity of two classes is
lost in this gap.

Main results:

- Definition `TrainingTable.PureOrSmall`: rows that leave nothing to split.
- Definition `TrainingTable.EndsGrowth`: the reasons for which growth ends.
- Theorem `TrainingTable.grow?_endsGrowth`: every leaf has one of these reasons.
- Theorem `TrainingTable.not_leavesPureOrSmall_grow?`: rows of two classes that could be split.
-/

namespace LeadScoring.TrainingTable

open Binary64 (IsWhole toRat)

section Definitions

variable (t : TrainingTable Float) (config : TreeConfig) (rows : List ℕ) (feature : ℕ)
  (threshold : ℝ)

/-- All rows are of one class. -/
def OneClass : Prop :=
  ∃ label, ∀ row ∈ rows, t.label row = label

/-- A threshold cuts rows into two parts, each of them large enough for a leaf. -/
structure Divides : Prop where
  upTo_ne_nil : rowsUpTo (t.exactValue feature) threshold rows ≠ []
  beyond_ne_nil : rowsBeyond (t.exactValue feature) threshold rows ≠ []
  le_upTo : config.minSamplesLeaf ≤ (rowsUpTo (t.exactValue feature) threshold rows).length
  le_beyond : config.minSamplesLeaf ≤ (rowsBeyond (t.exactValue feature) threshold rows).length

/-- The decrease of the weighted impurity at a threshold as a sweep computes it: the rows on its left
are counted in the order of the feature, and those on its right are what remains. -/
noncomputable def computedGain : Float :=
  let left := t.countsOf (rowsUpTo (t.exactValue feature) threshold (t.sortedBy feature rows))
  (t.countsOf rows).weightedGini -
    (left.weightedGini + ((t.countsOf rows).without left).weightedGini)

/-- The rows are of one class, too few to be split, or not to be cut into two parts that are large
enough for leaves. -/
def PureOrSmall : Prop :=
  t.OneClass rows ∨ rows.length < config.minSamplesSplit ∨
    ∀ feature < t.width, ∀ threshold : ℝ, ¬ t.Divides config rows feature threshold

/-- What keeps growth from splitting rows of whole weights. -/
inductive EndsGrowth (w : ℕ → ℕ) : Prop
  | oneClass (h : t.OneClass rows)
  | small (h : rows.length < config.minSamplesSplit)
  | noGain (h : ∀ feature < t.width, ∀ threshold : ℝ, t.Divides config rows feature threshold →
      t.computedGain rows feature threshold ≤ Scalar.resolution)
  | lostImpurity
      (heavy : 2 ^ 51 < t.weightOf w .negative rows + t.weightOf w .positive rows)
      (h : (t.countsOf rows).gini ≤ Scalar.resolution)

end Definitions

variable {t : TrainingTable Float} {config : TreeConfig} {rows : List ℕ} {w : ℕ → ℕ}

/-! ## One class -/

/-- A row that takes part weighs something. -/
theorem weight_pos {row n : ℕ} (hrow : row ∈ t.weightedRows) (hwhole : IsWhole (t.weight row) n) :
    0 < n := by
  have hpos : 0 < t.weight row := of_decide_eq_true (List.mem_filter.1 hrow).2
  have hzero : IsWhole (0.0 : Float) 0 := Binary64.isWhole_zero
  have hlt := (Binary64.lt_iff_toRat_lt hzero.finite hwhole.finite).1 hpos
  rw [hzero.toRat_eq, hwhole.toRat_eq] at hlt
  exact_mod_cast hlt

/-- No row of some rows is of a class that has no weight among them. -/
theorem label_ne_of_weightOf_eq_zero {label : Label} (hpos : ∀ row ∈ rows, 0 < w row)
    (h : t.weightOf w label rows = 0) : ∀ row ∈ rows, t.label row ≠ label := by
  intro row hrow hlabel
  have hmem : row ∈ rows.filter fun row => decide (t.label row = label) :=
    List.mem_filter.2 ⟨hrow, decide_eq_true hlabel⟩
  have hzero := List.sum_eq_zero_iff.1 h (w row) (List.mem_map_of_mem hmem)
  exact absurd (hpos row hrow) (by omega)

/-- Rows that weigh at most `2 ^ 51` are of one class if they are taken for pure. -/
theorem oneClass_of_gini_le (hwhole : ∀ row ∈ rows, IsWhole (t.weight row) (w row))
    (hpos : ∀ row ∈ rows, 0 < w row)
    (hlight : t.weightOf w .negative rows + t.weightOf w .positive rows ≤ 2 ^ 51)
    (h : (t.countsOf rows).gini ≤ Scalar.resolution) : t.OneClass rows := by
  have hcounts : ∀ label, IsWhole ((t.countsOf rows).of label) (t.weightOf w label rows) := by
    intro label
    refine isWhole_countsOf hwhole ?_
    cases label <;> omega
  have hmissing : t.weightOf w .negative rows = 0 ∨ t.weightOf w .positive rows = 0 := by
    by_contra hboth
    rw [not_or] at hboth
    exact ClassCounts.resolution_lt_gini (hcounts .negative) (hcounts .positive) (by omega)
      (by omega) hlight h
  rcases hmissing with hnone | hnone
  · refine ⟨.positive, fun row hrow => ?_⟩
    have hne := label_ne_of_weightOf_eq_zero hpos hnone row hrow
    cases hlabel : t.label row with
    | negative => exact absurd hlabel hne
    | positive => rfl
  · refine ⟨.negative, fun row hrow => ?_⟩
    have hne := label_ne_of_weightOf_eq_zero hpos hnone row hrow
    cases hlabel : t.label row with
    | negative => rfl
    | positive => exact absurd hlabel hne

/-! ## No cut -/

/-- Two parts that are large enough for leaves are as many rows as two leaves need. -/
theorem Divides.rowsOfTwoLeaves_le {feature : ℕ} {threshold : ℝ}
    (h : t.Divides config rows feature threshold) : config.rowsOfTwoLeaves ≤ rows.length := by
  have hlength := List.length_eq_length_filter_add (l := rows)
    fun row => decide (t.exactValue feature row ≤ threshold)
  have hlow : config.minSamplesLeaf ≤
      (rows.filter fun row => decide (t.exactValue feature row ≤ threshold)).length := h.le_upTo
  have hhigh : config.minSamplesLeaf ≤
      (rows.filter fun row => !decide (t.exactValue feature row ≤ threshold)).length := h.le_beyond
  have hmod : config.rowsOfTwoLeaves ≤ 2 * config.minSamplesLeaf := Nat.mod_le _ _
  omega

/-- A search on all features looks at each of them. -/
theorem mem_sample_all (hfeatures : config.maxFeatures = .all) (g : Generator) {feature width : ℕ}
    (hfeature : feature < width) :
    feature ∈ (g.sample width (config.maxFeatures.resolve width)).1 := by
  have hall : width ≤ config.maxFeatures.resolve width := by
    rw [hfeatures, MaxFeatures.resolve]
    omega
  rw [(Generator.sample_perm_range hall g).mem_iff, List.mem_range]
  exact hfeature

/-- A threshold that cuts rows and has a gain is met as a candidate. -/
theorem exists_candidate_of_divides (hfinite : t.HasFiniteFeatures) {feature : ℕ} {threshold : ℝ}
    (hdivides : t.Divides config rows feature threshold)
    (hgain : ¬ t.computedGain rows feature threshold ≤ Scalar.resolution) :
    ∃ cut, cut ∈ t.candidatesOn config (t.countsOf rows) rows feature := by
  have hperm := t.sortedBy_perm feature rows
  have hkeys := sortedBy_keys hfinite feature rows
  obtain ⟨lower, row, next, upper, hsorted, hlow, hhigh⟩ :=
    exists_neighbours hkeys hperm hdivides.upTo_ne_nil hdivides.beyond_ne_nil
  rw [hsorted] at hperm hkeys
  obtain ⟨hupTo, hbeyond⟩ := sides_perm_of_neighbours hkeys hperm hlow hhigh
  have hupToLength := hdivides.le_upTo
  have hbeyondLength := hdivides.le_beyond
  rw [hupTo.length_eq] at hupToLength
  rw [hbeyond.length_eq] at hbeyondLength
  have hlength := hperm.length_eq
  rw [List.length_append, List.length_cons] at hlength
  have hapart : ¬ t.value feature next ≤ t.value feature row := by
    rw [Binary64.le_iff_toRat_le (hfinite.isFinite_value feature next)
      (hfinite.isFinite_value feature row), not_le]
    exact Rat.cast_lt.1 (hlow.trans_lt hhigh)
  -- The sweep has counted the rows up to the threshold when it meets the two neighbours.
  rw [computedGain, hsorted, (sides_of_neighbours hkeys hlow hhigh).1] at hgain
  refine ⟨⟨feature, _, _⟩, mem_candidatesOn_iff.2 ⟨lower, row, next, upper, hsorted,
    cutBetween?_eq_some_iff.2 ⟨hapart, hupToLength, ?_, hgain, rfl⟩⟩⟩
  rw [List.length_append, List.length_singleton]
  omega

/-- Where a search on all features finds no cut, no threshold that cuts the rows has a gain. -/
theorem computedGain_le_of_bestCut? (hfinite : t.HasFiniteFeatures)
    (hfeatures : config.maxFeatures = .all) {g : Generator}
    (hnone : (t.bestCut? config rows (t.countsOf rows) g).1 = none) {feature : ℕ}
    (hfeature : feature < t.width) {threshold : ℝ}
    (hdivides : t.Divides config rows feature threshold) :
    t.computedGain rows feature threshold ≤ Scalar.resolution := by
  by_contra hgain
  obtain ⟨cut, hcut⟩ := exists_candidate_of_divides hfinite hdivides hgain
  have hmem := List.mem_flatMap.2 ⟨feature, mem_sample_all hfeatures g hfeature, hcut⟩
  have hempty := bestCut?_eq_none_iff.1 hnone
  rw [candidates] at hempty
  rw [hempty] at hmem
  exact absurd hmem List.not_mem_nil

/-! ## Leaves -/

/-- Rows of whole weights that growth leaves together have one of the reasons. -/
theorem Grows.endsGrowth (hfinite : t.HasFiniteFeatures) (hdepth : config.maxDepth = none)
    (hfeatures : config.maxFeatures = .all)
    (hwhole : ∀ row ∈ rows, IsWhole (t.weight row) (w row)) (hpos : ∀ row ∈ rows, 0 < w row)
    {depth : ℕ} {counts : ClassCounts Float} (h : t.Grows config depth rows (.leaf counts)) :
    t.EndsGrowth config rows w := by
  rcases h.leaf_cases with hfinal | ⟨g, hnone⟩
  · simp only [isFinal, hdepth, Bool.false_or, Bool.or_eq_true, decide_eq_true_eq] at hfinal
    rcases hfinal with (hsmall | hsmall) | hgini
    · exact .small hsmall
    · refine .noGain fun feature _ threshold hdivides => ?_
      exact absurd hdivides.rowsOfTwoLeaves_le (not_le.2 hsmall)
    · by_cases hlight : t.weightOf w .negative rows + t.weightOf w .positive rows ≤ 2 ^ 51
      · exact .oneClass (oneClass_of_gini_le hwhole hpos hlight hgini)
      · exact .lostImpurity (not_le.1 hlight) hgini
  · exact .noGain fun feature hfeature threshold hdivides =>
      computedGain_le_of_bestCut? hfinite hfeatures hnone hfeature hdivides

/-- A tree is grown from every table of finite features and whole weights.  Without a greatest depth
and with a search on all features, the rows of each of its leaves have one of the reasons for which
growth ends. -/
theorem grow?_endsGrowth (t : TrainingTable Float) (hfinite : t.HasFiniteFeatures) (w : ℕ → ℕ)
    (hwhole : ∀ row ∈ t.weightedRows, IsWhole (t.weight row) (w row)) (config : TreeConfig)
    (hdepth : config.maxDepth = none) (hfeatures : config.maxFeatures = .all) (g : Generator) :
    ∃ grown after, t.grow? config g = some (grown, after) ∧
      ∀ node < (FittedTree.ofTree grown.tree).nodeCount,
        (FittedTree.ofTree grown.tree).children? node = none →
          t.EndsGrowth config (t.rowsThrough (FittedTree.ofTree grown.tree) node) w := by
  obtain ⟨grown, after, hgrow⟩ := exists_grow? hfinite config g
  have hgrows : t.Grows config 0 t.weightedRows grown.tree := ⟨_, _, _, _, hgrow, rfl⟩
  refine ⟨grown, after, hgrow, fun node hnode hleaf => ?_⟩
  obtain ⟨edges, hway⟩ := exists_descends_ofTree hnode
  obtain ⟨part, hstands, hpart⟩ := (handsDown_grows t config).exists_part_ofTree hgrows hway
  have hlays := FittedTree.laysOut_of_standsAt hstands
  have hrows : ∀ row ∈ t.rowsThrough (FittedTree.ofTree grown.tree) node, row ∈ t.weightedRows :=
    fun row hrow => List.mem_of_mem_filter hrow
  cases part with
  | leaf counts =>
    exact hpart.endsGrowth hfinite hdepth hfeatures (fun row hrow => hwhole row (hrows row hrow))
      fun row hrow => weight_pos (hrows row hrow) (hwhole row (hrows row hrow))
  | split feature threshold counts left right => cases hleaf.symm.trans hlays.1

/-- The leaves of rows with extreme values and weights have a reason each. -/
theorem grow?_endsGrowth_extremeRows :
    extremeRows.HasFiniteFeatures ∧
      (∀ row ∈ extremeRows.weightedRows, IsWhole (extremeRows.weight row) (extremeWeights row)) ∧
      ({ maxFeatures := .all } : TreeConfig).maxDepth = none ∧
      ∃ grown after,
        extremeRows.grow? { maxFeatures := .all } (Generator.ofSeed 1) = some (grown, after) ∧
        ∀ node < (FittedTree.ofTree grown.tree).nodeCount,
          (FittedTree.ofTree grown.tree).children? node = none →
            extremeRows.EndsGrowth { maxFeatures := .all }
              (extremeRows.rowsThrough (FittedTree.ofTree grown.tree) node) extremeWeights := by
  have hfinite : extremeRows.HasFiniteFeatures := by decide +kernel
  have hwhole : ∀ row ∈ extremeRows.weightedRows,
      IsWhole (extremeRows.weight row) (extremeWeights row) := by decide +kernel
  obtain ⟨grown, after, hgrow, hleaves⟩ := grow?_endsGrowth extremeRows hfinite extremeWeights
    hwhole { maxFeatures := .all } rfl rfl (Generator.ofSeed 1)
  exact ⟨hfinite, hwhole, rfl, grown, after, hgrow, hleaves⟩

/-! ## Rows that could be split -/

/-- Each leaf of a tree has rows that leave nothing to split. -/
def LeavesPureOrSmall (t : TrainingTable Float) (config : TreeConfig) (tree : FittedTree Float) :
    Prop :=
  ∀ node < tree.nodeCount, tree.children? node = none →
    t.PureOrSmall config (t.rowsThrough tree node)

/-- A table stays one leaf if it is final or has no cut. -/
theorem exists_grow?_leaf
    (h : ∀ g, isFinal config 0 t.weightedRows.length (t.countsOf t.weightedRows) = true ∨
      (t.bestCut? config t.weightedRows (t.countsOf t.weightedRows) g).1 = none) (g : Generator) :
    ∃ grown after, t.grow? config g = some (grown, after) ∧
      grown.tree = .leaf (t.countsOf t.weightedRows) := by
  obtain ⟨grown, after, hgrow⟩ : ∃ grown after, t.grow? config g = some (grown, after) :=
    exists_growFrom?_leaf (h g)
  refine ⟨grown, after, hgrow, ?_⟩
  rcases growFrom?_cases hgrow with ⟨rfl, -⟩ |
    ⟨less, cut, between, left, afterLeft, right, -, hfinal, hcut, -, -, -⟩
  · rfl
  · rcases h g with hleaf | hleaf
    · exact absurd (hfinal.symm.trans hleaf) Bool.false_ne_true
    · rw [hcut] at hleaf
      cases hleaf

/-- A test that sends enough rows to both sides divides them at its threshold. -/
theorem divides_of_filter (hfinite : t.HasFiniteFeatures) {feature : ℕ} {threshold : Float}
    (hthreshold : Scalar.isFinite threshold = true)
    (hleft : max 1 config.minSamplesLeaf ≤
      (rows.filter fun row => decide (t.value feature row ≤ threshold)).length)
    (hright : max 1 config.minSamplesLeaf ≤
      (rows.filter fun row => !decide (t.value feature row ≤ threshold)).length) :
    t.Divides config rows feature (toRat threshold) := by
  obtain ⟨hupTo, hbeyond⟩ := filter_le_eq_rowsUpTo hfinite hthreshold feature rows
  rw [hupTo] at hleft
  rw [hbeyond] at hright
  exact ⟨List.ne_nil_of_length_pos (le_of_max_le_left hleft),
    List.ne_nil_of_length_pos (le_of_max_le_left hright), le_of_max_le_right hleft,
    le_of_max_le_right hright⟩

/-- Rows of different labels are not of one class. -/
theorem not_oneClass (row next : ℕ) (hrow : row ∈ rows) (hnext : next ∈ rows)
    (hne : t.label row ≠ t.label next) : ¬ t.OneClass rows := by
  rintro ⟨label, hlabel⟩
  exact hne ((hlabel row hrow).trans (hlabel next hnext).symm)

/-- One leaf with rows of two classes, of which there are enough to be split and which are divided
by some threshold, leaves something to split. -/
theorem not_leavesPureOrSmall_leaf {counts : ClassCounts Float} {feature : ℕ} {threshold : ℝ}
    (hclasses : ¬ t.OneClass t.weightedRows)
    (hsize : config.minSamplesSplit ≤ t.weightedRows.length) (hfeature : feature < t.width)
    (hdivides : t.Divides config t.weightedRows feature threshold) :
    ¬ t.LeavesPureOrSmall config (FittedTree.ofTree (.leaf counts)) := by
  intro hleaves
  have hpos : 0 < (FittedTree.ofTree (.leaf counts)).nodeCount := by
    rw [FittedTree.nodeCount_ofTree]
    exact DecisionTree.size_pos _
  have hroot := hleaves 0 hpos (FittedTree.laysOut_ofTree (.leaf counts))
  rw [rowsThrough_root] at hroot
  rcases hroot with hone | hsmall | hnone
  · exact hclasses hone
  · omega
  · exact hnone feature hfeature threshold hdivides

/-- Two rows of either class, one of each at both values. -/
def evenRows : TrainingTable Float where
  features := #[#[0.0], #[0.0], #[1.0], #[1.0]]
  labels := #[.negative, .positive, .negative, .positive]
  weights := #[1.0, 1.0, 1.0, 1.0]

/-- A row of weight one beside one that weighs almost `2 ^ 53`. -/
def lopsidedRows : TrainingTable Float where
  features := #[#[0.0], #[1.0]]
  labels := #[.negative, .positive]
  weights := #[1.0, 9007199254740991.0]

/-- The weights as whole numbers. -/
def lopsidedWeights : ℕ → ℕ
  | 0 => 1
  | _ => 2 ^ 53 - 1

/-- No cut of the even rows has a gain. -/
theorem bestCut?_evenRows (g : Generator) :
    (evenRows.bestCut? { maxFeatures := .all } evenRows.weightedRows
      (evenRows.countsOf evenRows.weightedRows) g).1 = none := by
  have hrows : evenRows.weightedRows = [0, 1, 2, 3] := by decide +kernel
  have hsorted : evenRows.sortedBy 0 [0, 1, 2, 3] = [0, 1, 2, 3] := by
    apply List.mergeSort_of_pairwise
    decide +kernel
  have hsweep : evenRows.sweep { maxFeatures := .all } (evenRows.countsOf [0, 1, 2, 3]) 4 0 .zero 0
      none [0, 1, 2, 3] = none := by
    decide +kernel
  have hwidth : evenRows.width = 1 := rfl
  have hchoice : MaxFeatures.all.resolve 1 = 1 := rfl
  rw [hrows, bestCut?, hwidth, hchoice, Generator.sample_one]
  dsimp only
  rw [bestCutOn?, List.foldl_cons, List.foldl_nil, hsorted]
  exact hsweep

/-- The cut of the lopsided rows has a gain. -/
theorem lt_computedGain_lopsidedRows :
    ¬ lopsidedRows.computedGain lopsidedRows.weightedRows 0 (toRat 0.5) ≤ Scalar.resolution := by
  have hrows : lopsidedRows.weightedRows = [0, 1] := by decide +kernel
  have hsorted : lopsidedRows.sortedBy 0 [0, 1] = [0, 1] := by
    apply List.mergeSort_of_pairwise
    decide +kernel
  have hfinite : lopsidedRows.HasFiniteFeatures := by decide +kernel
  have hhalf : Scalar.isFinite (0.5 : Float) = true := by decide
  have hleft : rowsUpTo (lopsidedRows.exactValue 0) (toRat 0.5) [0, 1] = [0] := by
    rw [← (filter_le_eq_rowsUpTo hfinite hhalf 0 [0, 1]).1]
    decide +kernel
  rw [computedGain, hrows, hsorted, hleft]
  decide +kernel

/-- Rows that could be split stay together where no cut has a gain, and where the impurity of a great
weight is taken for none although a cut has a gain. -/
theorem not_leavesPureOrSmall_grow? :
    (evenRows.HasFiniteFeatures ∧
      (∀ row ∈ evenRows.weightedRows, IsWhole (evenRows.weight row) 1) ∧
      ∃ grown after,
        evenRows.grow? { maxFeatures := .all } (Generator.ofSeed 1) = some (grown, after) ∧
        ¬ evenRows.LeavesPureOrSmall { maxFeatures := .all } (FittedTree.ofTree grown.tree)) ∧
    lopsidedRows.HasFiniteFeatures ∧
      (∀ row ∈ lopsidedRows.weightedRows,
        IsWhole (lopsidedRows.weight row) (lopsidedWeights row)) ∧
      ∃ grown after,
        lopsidedRows.grow? { maxFeatures := .all } (Generator.ofSeed 1) = some (grown, after) ∧
        ¬ lopsidedRows.LeavesPureOrSmall { maxFeatures := .all } (FittedTree.ofTree grown.tree) ∧
        lopsidedRows.Divides { maxFeatures := .all } lopsidedRows.weightedRows 0 (toRat 0.5) ∧
        ¬ lopsidedRows.computedGain lopsidedRows.weightedRows 0 (toRat 0.5) ≤
          Scalar.resolution := by
  constructor
  · have hfinite : evenRows.HasFiniteFeatures := by decide +kernel
    obtain ⟨grown, after, hgrow, htree⟩ :=
      exists_grow?_leaf (fun g => Or.inr (bestCut?_evenRows g)) (Generator.ofSeed 1)
    have hdivides : evenRows.Divides { maxFeatures := .all } evenRows.weightedRows 0 (toRat 0.5) :=
      divides_of_filter hfinite (by decide) (by decide +kernel) (by decide +kernel)
    refine ⟨hfinite, by decide +kernel, grown, after, hgrow, ?_⟩
    rw [htree]
    exact not_leavesPureOrSmall_leaf
      (not_oneClass 0 1 (by decide +kernel) (by decide +kernel) (by decide))
      (by decide +kernel) (by decide) hdivides
  · have hfinite : lopsidedRows.HasFiniteFeatures := by decide +kernel
    have hfinal : isFinal { maxFeatures := .all } 0 lopsidedRows.weightedRows.length
        (lopsidedRows.countsOf lopsidedRows.weightedRows) = true := by
      decide +kernel
    obtain ⟨grown, after, hgrow, htree⟩ :=
      exists_grow?_leaf (fun _ => Or.inl hfinal) (Generator.ofSeed 1)
    have hdivides : lopsidedRows.Divides { maxFeatures := .all } lopsidedRows.weightedRows 0
        (toRat 0.5) :=
      divides_of_filter hfinite (by decide) (by decide +kernel) (by decide +kernel)
    refine ⟨hfinite, by decide +kernel, grown, after, hgrow, ?_, hdivides,
      lt_computedGain_lopsidedRows⟩
    rw [htree]
    exact not_leavesPureOrSmall_leaf
      (not_oneClass 0 1 (by decide +kernel) (by decide +kernel) (by decide))
      (by decide +kernel) (by decide) hdivides

end LeadScoring.TrainingTable
