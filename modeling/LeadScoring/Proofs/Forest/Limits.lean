import LeadScoring.Proofs.Forest.NodeCounts
import LeadScoring.Proofs.Forest.Sides
import LeadScoring.Proofs.Scalar.Comparison

/-!
# Limits of growth

The limits of a configuration are checked at two places: on the depth and the rows of a node before
it is split, and on the positions of the sweep that looks for a cut.  The rows are then parted again,
by comparing their values with the threshold.  Since a threshold between two doubles parts the sorted
rows exactly at their place, every node of a grown tree keeps the limits.

Main results:

- Definition `TrainingTable.Grows` and theorems `TrainingTable.Grows.leaf_cases`,
  `TrainingTable.Grows.split_cases`: what growth makes of some rows, and what it has checked.
- Theorem `TrainingTable.sides_of_bestCut?`: the best cut leaves both sides the rows of a leaf.
- Definition `TrainingTable.KeepsLimits`: a tree keeps the limits of a configuration.
- Theorem `TrainingTable.grow?_keepsLimits`: grown trees keep the limits.
-/

namespace LeadScoring

open Binary64 (orderKey toRat)

namespace TrainingTable

/-! ## Steps of growth -/

section Grows

variable {α : Type} [Scalar α]

/-- A tree is what growth makes of some rows at some depth. -/
def Grows (t : TrainingTable α) (config : TreeConfig) (depth : ℕ) (rows : List ℕ)
    (tree : DecisionTree α) : Prop :=
  ∃ bound g grown after,
    t.growFrom? config bound depth rows g = some (grown, after) ∧ grown.tree = tree

variable {t : TrainingTable α} {config : TreeConfig} {depth : ℕ} {rows : List ℕ}

/-- A node is not final if its depth, its rows and its impurity all leave something to do. -/
theorem isFinal_eq_false_iff {size : ℕ} {counts : ClassCounts α} :
    isFinal config depth size counts = false ↔
      (∀ limit, config.maxDepth = some limit → depth < limit) ∧ config.minSamplesSplit ≤ size ∧
        config.rowsOfTwoLeaves ≤ size ∧ ¬ counts.gini ≤ Scalar.resolution := by
  unfold isFinal
  cases config.maxDepth <;> simp [and_assoc]

/-- A leaf is a final node, or no cut of its rows was found. -/
theorem Grows.leaf_cases {counts : ClassCounts α} (h : t.Grows config depth rows (.leaf counts)) :
    isFinal config depth rows.length (t.countsOf rows) = true ∨
      ∃ g, (t.bestCut? config rows (t.countsOf rows) g).1 = none := by
  obtain ⟨bound, g, grown, after, hgrow, htree⟩ := h
  rcases growFrom?_cases hgrow with ⟨rfl, ⟨hfinal, -⟩ | ⟨-, hnone⟩⟩ |
    ⟨less, cut, between, left, afterLeft, right, rfl, -, -, -, -, rfl⟩
  · exact Or.inl hfinal
  · exact Or.inr ⟨g, by rw [hnone]⟩
  · cases htree

/-- A split is made at the best cut of a node that is not final, and growth goes on with the rows on
either side. -/
theorem Grows.split_cases {feature : ℕ} {threshold : α} {counts : ClassCounts α}
    {left right : DecisionTree α}
    (h : t.Grows config depth rows (.split feature threshold counts left right)) :
    isFinal config depth rows.length (t.countsOf rows) = false ∧
      (∃ cut g after, t.bestCut? config rows (t.countsOf rows) g = (some cut, after) ∧
        cut.feature = feature ∧ cut.threshold = threshold) ∧
      t.Grows config (depth + 1)
        (rows.filter fun row => decide (t.value feature row ≤ threshold)) left ∧
      t.Grows config (depth + 1)
        (rows.filter fun row => !decide (t.value feature row ≤ threshold)) right := by
  obtain ⟨bound, g, grown, after, hgrow, htree⟩ := h
  rcases growFrom?_cases hgrow with ⟨rfl, -⟩ |
    ⟨less, cut, between, leftGrown, afterLeft, rightGrown, rfl, hfinal, hcut, hleft, hright, rfl⟩
  · cases htree
  · cases htree
    exact ⟨hfinal, ⟨cut, g, between, hcut, rfl, rfl⟩, ⟨less, _, _, _, hleft, rfl⟩,
      ⟨less, _, _, _, hright, rfl⟩⟩

/-- What growth makes of some rows, it makes of their two sides below a split. -/
theorem handsDown_grows (t : TrainingTable α) (config : TreeConfig) :
    t.HandsDown (t.Grows config) := by
  intro depth rows feature threshold counts left right h
  exact h.split_cases.2.2

end Grows

/-! ## Exact values -/

section Sides

variable {t : TrainingTable Float} {config : TreeConfig} {rows : List ℕ} {feature : ℕ}

/-- The place of a row in the order of a feature. -/
def place (t : TrainingTable Float) (feature row : ℕ) : ℝ :=
  orderKey (t.value feature row)

/-- Rows are sorted by their places. -/
theorem sortedBy_places (t : TrainingTable Float) (feature : ℕ) (rows : List ℕ) :
    (t.sortedBy feature rows).Pairwise
      fun row next => t.place feature row ≤ t.place feature next := by
  have hle : ∀ x y : Float, Scalar.totalLe x y = true ↔ orderKey x ≤ orderKey y :=
    fun x y => decide_eq_true_iff
  refine (List.pairwise_mergeSort ?_ ?_ rows).imp ?_
  · intro a b c hab hbc
    rw [hle] at *
    exact hab.trans hbc
  · intro a b
    rw [Bool.or_eq_true, hle, hle]
    exact le_total _ _
  · intro a b hab
    exact Int.cast_le.2 ((hle _ _).1 hab)

/-- The exact value of a feature in a row. -/
def exactValue (t : TrainingTable Float) (feature row : ℕ) : ℝ :=
  toRat (t.value feature row)

variable (hfinite : t.HasFiniteFeatures)

include hfinite

/-- Rows are sorted by their exact values. -/
theorem sortedBy_keys (feature : ℕ) (rows : List ℕ) :
    (t.sortedBy feature rows).Pairwise
      fun row next => t.exactValue feature row ≤ t.exactValue feature next :=
  (t.sortedBy_places feature rows).imp fun hle => Rat.cast_le.2
    (Binary64.toRat_le_of_orderKey_le (hfinite.isFinite_value feature _)
      (hfinite.isFinite_value feature _) (Int.cast_le.1 hle))

/-- The threshold between two values that can be told apart is finite, and the exact values lie on
either side of it. -/
theorem exactValue_thresholdBetween {row next : ℕ}
    (h : ¬ t.value feature next ≤ t.value feature row) :
    Scalar.isFinite (Cut.thresholdBetween (t.value feature row) (t.value feature next)) = true ∧
      t.exactValue feature row ≤
        toRat (Cut.thresholdBetween (t.value feature row) (t.value feature next)) ∧
      toRat (Cut.thresholdBetween (t.value feature row) (t.value feature next)) <
        t.exactValue feature next := by
  have hrow := hfinite.isFinite_value feature row
  have hnext := hfinite.isFinite_value feature next
  have hthreshold := Cut.isFinite_thresholdBetween (Or.inl hrow) (Or.inl hnext) h
  have hlow := Cut.le_thresholdBetween (Or.inl hrow) (Or.inl hnext) h
  have hhigh := Cut.not_le_thresholdBetween h
  rw [Binary64.le_iff_toRat_le hrow hthreshold] at hlow
  rw [Binary64.le_iff_toRat_le hnext hthreshold, not_le] at hhigh
  exact ⟨hthreshold, Rat.cast_le.2 hlow, Rat.cast_lt.2 hhigh⟩

/-- A test on a finite threshold compares exact values. -/
theorem filter_le_eq_rowsUpTo {threshold : Float} (h : Scalar.isFinite threshold = true)
    (feature : ℕ) (rows : List ℕ) :
    (rows.filter fun row => decide (t.value feature row ≤ threshold)) =
        rowsUpTo (t.exactValue feature) (toRat threshold) rows ∧
      (rows.filter fun row => !decide (t.value feature row ≤ threshold)) =
        rowsBeyond (t.exactValue feature) (toRat threshold) rows := by
  have hle : ∀ row, t.value feature row ≤ threshold ↔
      t.exactValue feature row ≤ toRat threshold := fun row => by
    rw [Binary64.le_iff_toRat_le (hfinite.isFinite_value feature row) h, exactValue, Rat.cast_le]
  simp only [rowsUpTo, rowsBeyond, hle, and_self]

/-- The best cut leaves as many rows on both sides as a leaf needs, and at least one. -/
theorem sides_of_bestCut? {counts : ClassCounts Float} {g after : Generator} {cut : Cut Float}
    (h : t.bestCut? config rows counts g = (some cut, after)) :
    max 1 config.minSamplesLeaf ≤
        (rows.filter fun row => decide (t.value cut.feature row ≤ cut.threshold)).length ∧
      max 1 config.minSamplesLeaf ≤
        (rows.filter fun row => !decide (t.value cut.feature row ≤ cut.threshold)).length := by
  obtain ⟨feature, -, hmem⟩ := List.mem_flatMap.1 (mem_candidates_of_bestCut? h)
  obtain ⟨lower, row, next, upper, hsorted, hcut⟩ := mem_candidatesOn_iff.1 hmem
  obtain ⟨hle, hleft, hright, -, rfl⟩ := cutBetween?_eq_some_iff.1 hcut
  obtain ⟨hthreshold, hlow, hhigh⟩ := exactValue_thresholdBetween hfinite hle
  have hperm := t.sortedBy_perm feature rows
  have hkeys := sortedBy_keys hfinite feature rows
  rw [hsorted] at hperm hkeys
  obtain ⟨hupTo, hbeyond⟩ := sides_perm_of_neighbours hkeys hperm hlow hhigh
  obtain ⟨hleftSide, hrightSide⟩ := filter_le_eq_rowsUpTo hfinite hthreshold feature rows
  have hleftLength := (congrArg List.length hleftSide).trans hupTo.length_eq
  have hrightLength := (congrArg List.length hrightSide).trans hbeyond.length_eq
  have hlength := hperm.length_eq
  simp only [List.length_append, List.length_cons, List.length_nil] at hlength hleft hright
  refine ⟨le_of_le_of_eq ?_ hleftLength.symm, le_of_le_of_eq ?_ hrightLength.symm⟩
  · simp only [List.length_append, List.length_cons, List.length_nil]
    omega
  · simp only [List.length_cons]
    omega

end Sides

/-! ## Limits -/

/-- The nodes of a tree are numbered in pre-order and keep the limits of a configuration: splits
stand above the greatest depth and have enough rows, every other node has the rows of a leaf, and
both sides of a split have some.  So there are at most two nodes for each row, less one. -/
structure KeepsLimits {α : Type} [Scalar α] (t : TrainingTable α) (config : TreeConfig)
    (tree : FittedTree α) : Prop where
  preOrder : tree.children?.PreOrder tree.nodeCount
  depth_lt : ∀ limit, config.maxDepth = some limit → ∀ edges node,
    tree.children?.Descends 0 edges node → tree.children? node ≠ none → edges < limit
  rows_of_split : ∀ node, tree.children? node ≠ none →
    config.minSamplesSplit ≤ (t.rowsThrough tree node).length
  rows_of_node : ∀ node, 0 < node → node < tree.nodeCount →
    config.minSamplesLeaf ≤ (t.rowsThrough tree node).length
  sides_ne_nil : ∀ node left right, tree.children? node = some (left, right) →
    t.rowsThrough tree left ≠ [] ∧ t.rowsThrough tree right ≠ []
  nodeCount_le : 1 ≤ t.weightedRows.length → tree.nodeCount ≤ 2 * t.weightedRows.length - 1

section Doubles

variable {t : TrainingTable Float} {config : TreeConfig} {tree : DecisionTree Float}

/-- Below the root growth has enough rows for a leaf. -/
theorem handsDown_enough (hfinite : t.HasFiniteFeatures) (config : TreeConfig) :
    t.HandsDown fun depth rows tree => t.Grows config depth rows tree ∧
      (0 < depth → max 1 config.minSamplesLeaf ≤ rows.length) := by
  rintro depth rows feature threshold counts left right ⟨hgrows, -⟩
  obtain ⟨-, ⟨cut, g, after, hcut, rfl, rfl⟩, hleft, hright⟩ := hgrows.split_cases
  obtain ⟨hleftRows, hrightRows⟩ := sides_of_bestCut? hfinite hcut
  exact ⟨⟨hleft, fun _ => hleftRows⟩, ⟨hright, fun _ => hrightRows⟩⟩

section Parts

variable {edges node : ℕ} (hgrows : t.Grows config 0 t.weightedRows tree)

include hgrows

/-- A node with children stands for a split that growth made of the rows through it. -/
theorem Grows.exists_split_part (hway : (FittedTree.ofTree tree).children?.Descends 0 edges node)
    (hnode : (FittedTree.ofTree tree).children? node ≠ none) :
    ∃ feature threshold counts left right,
      (FittedTree.ofTree tree).children? node = some (node + 1, node + 1 + left.size) ∧
        t.Grows config edges (t.rowsThrough (FittedTree.ofTree tree) node)
          (.split feature threshold counts left right) := by
  obtain ⟨part, hstands, hpart⟩ := (handsDown_grows t config).exists_part_ofTree hgrows hway
  have hlays := FittedTree.laysOut_of_standsAt hstands
  cases part with
  | leaf counts => exact absurd hlays hnode
  | split feature threshold counts left right => exact ⟨_, _, _, left, _, hlays.1, hpart⟩

/-- A node that growth has reached by some edges has the rows of a leaf. -/
theorem Grows.enough (hfinite : t.HasFiniteFeatures)
    (hway : (FittedTree.ofTree tree).children?.Descends 0 edges node) (hpos : 0 < edges) :
    max 1 config.minSamplesLeaf ≤ (t.rowsThrough (FittedTree.ofTree tree) node).length := by
  have hroot : 0 < 0 → max 1 config.minSamplesLeaf ≤ t.weightedRows.length :=
    fun h => absurd h (lt_irrefl 0)
  obtain ⟨part, -, -, henough⟩ :=
    (handsDown_enough hfinite config).exists_part_ofTree ⟨hgrows, hroot⟩ hway
  exact henough hpos

/-- Grown trees keep the limits. -/
theorem Grows.keepsLimits (hfinite : t.HasFiniteFeatures)
    (hsize : tree.size + 1 ≤ 2 * max 1 t.weightedRows.length) :
    t.KeepsLimits config (FittedTree.ofTree tree) := by
  constructor
  · exact FittedTree.preOrder_ofTree tree
  · intro limit hlimit edges node hway hnode
    obtain ⟨feature, threshold, counts, left, right, -, hpart⟩ :=
      hgrows.exists_split_part hway hnode
    exact (isFinal_eq_false_iff.1 hpart.split_cases.1).1 limit hlimit
  · intro node hnode
    obtain ⟨edges, hway⟩ :=
      exists_descends_ofTree (FittedTree.lt_nodeCount_of_children? hnode)
    obtain ⟨feature, threshold, counts, left, right, -, hpart⟩ :=
      hgrows.exists_split_part hway hnode
    exact (isFinal_eq_false_iff.1 hpart.split_cases.1).2.1
  · intro node hpos hnode
    obtain ⟨edges, hway⟩ := exists_descends_ofTree hnode
    have hedges : 0 < edges := by
      by_contra hzero
      obtain rfl : edges = 0 := by omega
      cases hway
      exact lt_irrefl 0 hpos
    exact (le_max_right _ _).trans (hgrows.enough hfinite hway hedges)
  · intro node left right hchildren
    obtain ⟨edges, hway⟩ := exists_descends_ofTree
      (FittedTree.lt_nodeCount_of_children? (hchildren ▸ Option.some_ne_none _))
    have hsome : ∀ child, child = left ∨ child = right →
        t.rowsThrough (FittedTree.ofTree tree) child ≠ [] := by
      intro child hchild
      have henough := hgrows.enough hfinite
        (hway.next ((Branching.isChild_iff hchildren).2 hchild)) (Nat.succ_pos edges)
      exact List.ne_nil_of_length_pos (le_of_max_le_left henough)
    exact ⟨hsome left (Or.inl rfl), hsome right (Or.inr rfl)⟩
  · intro hrows
    rw [FittedTree.nodeCount_ofTree]
    omega

end Parts

/-- A tree is grown from every table of finite features, and it keeps the limits of its
configuration. -/
theorem grow?_keepsLimits (t : TrainingTable Float) (hfinite : t.HasFiniteFeatures)
    (config : TreeConfig) (g : Generator) :
    ∃ grown after, t.grow? config g = some (grown, after) ∧
      t.KeepsLimits config (FittedTree.ofTree grown.tree) := by
  obtain ⟨grown, after, hgrow⟩ := exists_grow? hfinite config g
  have hgrows : t.Grows config 0 t.weightedRows grown.tree := ⟨_, _, _, _, hgrow, rfl⟩
  exact ⟨grown, after, hgrow,
    hgrows.keepsLimits hfinite (size_of_growFrom? hfinite.cutsApart hgrow)⟩

/-- The tree of rows with extreme values keeps a limit of two on its depth. -/
theorem grow?_keepsLimits_extremeRows :
    extremeRows.HasFiniteFeatures ∧ ∃ grown after,
      extremeRows.grow? { maxDepth := some 2, maxFeatures := .all } (Generator.ofSeed 1) =
        some (grown, after) ∧
      extremeRows.KeepsLimits { maxDepth := some 2, maxFeatures := .all }
        (FittedTree.ofTree grown.tree) ∧
      (FittedTree.ofTree grown.tree).nodeCount ≤ 5 := by
  have hfinite : extremeRows.HasFiniteFeatures := by decide +kernel
  have hrows : extremeRows.weightedRows.length = 3 := by decide +kernel
  obtain ⟨grown, after, hgrow, hkeeps⟩ := grow?_keepsLimits extremeRows hfinite
    { maxDepth := some 2, maxFeatures := .all } (Generator.ofSeed 1)
  have hcount := hkeeps.nodeCount_le (by omega)
  exact ⟨hfinite, grown, after, hgrow, hkeeps, by omega⟩

end Doubles

end TrainingTable

end LeadScoring
