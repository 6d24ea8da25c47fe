import LeadScoring.Proofs.Forest.Growth
import LeadScoring.Proofs.Forest.Parts
import LeadScoring.Proofs.Scalar.Whole

/-!
# Counts of nodes

Growth hands the rows of a node down to its children by the same comparison that a decision path
makes, so the rows that a node was grown from are those whose path passes it.  Its counts are their
weights, summed up from left to right; as long as the weights are whole and no class weighs more
than `2 ^ 53`, no sum is rounded, and the two children of a split add up to it.

Main results:

- Definition `TrainingTable.Sorts`: every node of a tree has the counts of the rows that the tests
  lead there.
- Theorem `TrainingTable.sorts_of_growFrom?`: grown trees sort their rows.
- Theorem `TrainingTable.Sorts.exists_part_ofTree`: each node sorts the rows whose decision path
  passes it.
- Theorem `TrainingTable.isWhole_countsOf`: counts of whole weights are exact.
- Theorem `TrainingTable.grow?_counts`: the counts of all nodes of a grown tree.
-/

namespace LeadScoring

open Binary64 (IsWhole toRat)

/-- The count of a class. -/
def ClassCounts.of {α : Type} (c : ClassCounts α) : Label → α
  | .negative => c.negative
  | .positive => c.positive

/-- The children of each split add up to its counts, without rounding. -/
def FittedTree.ChildrenAddUp (tree : FittedTree Float) : Prop :=
  ∀ node feature threshold left right counts,
    tree.node? node = some (.split feature threshold left right counts) →
      0 ≤ left ∧ 0 ≤ right ∧ ∃ below above,
        tree.counts[left.toNat]? = some below ∧ tree.counts[right.toNat]? = some above ∧
          ∀ label, toRat (below.of label) + toRat (above.of label) = toRat (counts.of label)

namespace TrainingTable

section Rows

variable {α : Type} [Scalar α]

/-- Every node of the arrays has the counts of the rows whose decision path passes it. -/
def CountsPaths (t : TrainingTable α) (tree : FittedTree α) : Prop :=
  ∀ node < tree.nodeCount, tree.counts[node]? = some (t.countsOf (t.rowsThrough tree node))

/-- A row adds its weight to the count of its label. -/
theorem of_addRow (t : TrainingTable α) (c : ClassCounts α) (row : ℕ) (label : Label) :
    (t.addRow c row).of label =
      if t.label row = label then c.of label + t.weight row else c.of label := by
  unfold addRow ClassCounts.add
  cases t.label row <;> cases label <;> rfl

/-! ## Rows of a node -/

/-- A tree sorts rows if every node has the counts of the rows that the tests lead there. -/
inductive Sorts (t : TrainingTable α) : List ℕ → DecisionTree α → Prop
  | leaf (rows : List ℕ) : Sorts t rows (.leaf (t.countsOf rows))
  | split {rows : List ℕ} {feature : ℕ} {threshold : α} {left right : DecisionTree α}
      (leftPart : Sorts t (rows.filter fun row => decide (t.value feature row ≤ threshold)) left)
      (rightPart : Sorts t (rows.filter fun row => !decide (t.value feature row ≤ threshold))
        right) :
      Sorts t rows (.split feature threshold (t.countsOf rows) left right)

variable {t : TrainingTable α} {rows : List ℕ} {tree : DecisionTree α}

/-- The counts of a tree that sorts rows are those of all of them. -/
theorem Sorts.counts_eq (h : t.Sorts rows tree) : tree.counts = t.countsOf rows := by
  cases h <;> rfl

/-- Growth hands rows down as its tests do. -/
theorem sorts_of_growFrom? {config : TreeConfig} {bound depth : ℕ} {g after : Generator}
    {grown : Grown α} (h : t.growFrom? config bound depth rows g = some (grown, after)) :
    t.Sorts rows grown.tree :=
  growFrom?_induction Sorts.leaf (fun _ _ _ _ _ _ _ hleft hright => .split hleft hright) h

/-- Both sides of a split sort the rows that it sends there. -/
theorem handsDown_sorts : t.HandsDown fun _ rows tree => t.Sorts rows tree := by
  intro depth rows feature threshold counts left right h
  cases h with
  | split leftPart rightPart => exact ⟨leftPart, rightPart⟩

/-- Each node of the arrays of a tree is the root of a part that sorts the rows through it. -/
theorem Sorts.exists_part_ofTree (h : t.Sorts t.weightedRows tree) {node : ℕ}
    (hnode : node < (FittedTree.ofTree tree).nodeCount) :
    ∃ part, StandsAt (FittedTree.rowsOf node part) (FittedTree.rowsOf 0 tree) node ∧
      t.Sorts (t.rowsThrough (FittedTree.ofTree tree) node) part := by
  obtain ⟨edges, hway⟩ := exists_descends_ofTree hnode
  exact handsDown_sorts.exists_part_ofTree h hway

/-- The arrays of a tree that sorts rows count the rows on the decision paths. -/
theorem Sorts.countsPaths (h : t.Sorts t.weightedRows tree) :
    t.CountsPaths (FittedTree.ofTree tree) := by
  intro node hnode
  obtain ⟨part, hstands, hsorts⟩ := h.exists_part_ofTree hnode
  rw [FittedTree.counts_of_standsAt hstands, hsorts.counts_eq]

/-- The two children of a split are counted over the rows that it sends left and right. -/
theorem Sorts.children_counts (h : t.Sorts t.weightedRows tree) {node : ℕ} {feature left right : ℤ}
    {threshold : α} {counts : ClassCounts α}
    (hnode : (FittedTree.ofTree tree).node? node =
      some (.split feature threshold left right counts)) :
    counts = t.countsOf (t.rowsThrough (FittedTree.ofTree tree) node) ∧
      0 ≤ left ∧ (FittedTree.ofTree tree).counts[left.toNat]? = some (t.countsOf
        ((t.rowsThrough (FittedTree.ofTree tree) node).filter
          fun row => decide (t.value feature.toNat row ≤ threshold))) ∧
      0 ≤ right ∧ (FittedTree.ofTree tree).counts[right.toNat]? = some (t.countsOf
        ((t.rowsThrough (FittedTree.ofTree tree) node).filter
          fun row => !decide (t.value feature.toNat row ≤ threshold))) := by
  obtain ⟨part, hstands, hsorts⟩ :=
    h.exists_part_ofTree (FittedTree.lt_nodeCount_of_node? hnode)
  cases hsorts with
  | leaf rows =>
    rw [FittedTree.node?_ofTree hstands.head, if_pos rfl] at hnode
    cases hnode
  | split leftPart rightPart =>
    have hright := hstands.right
    rw [FittedTree.length_rowsOf] at hright
    rw [FittedTree.node?_of_standsAt_split hstands] at hnode
    cases hnode
    refine ⟨rfl, by omega, ?_, by omega, ?_⟩
    · rw [Int.toNat_natCast, FittedTree.counts_of_standsAt hstands.left, leftPart.counts_eq,
        Int.toNat_natCast]
    · rw [Int.toNat_natCast, FittedTree.counts_of_standsAt hright, rightPart.counts_eq,
        Int.toNat_natCast]

end Rows

/-! ## Whole weights -/

/-- The weight of a class among some rows whose weights are whole numbers. -/
def weightOf {α : Type} (t : TrainingTable α) (w : ℕ → ℕ) (label : Label) (rows : List ℕ) : ℕ :=
  ((rows.filter fun row => decide (t.label row = label)).map w).sum

section Weights

variable {α : Type} {t : TrainingTable α} {w : ℕ → ℕ} {label : Label}

theorem weightOf_cons (row : ℕ) (rows : List ℕ) :
    t.weightOf w label (row :: rows) =
      (if t.label row = label then w row else 0) + t.weightOf w label rows := by
  unfold weightOf
  split_ifs with h <;> simp [h]

theorem weightOf_append (rows others : List ℕ) :
    t.weightOf w label (rows ++ others) = t.weightOf w label rows + t.weightOf w label others := by
  rw [weightOf, weightOf, weightOf, List.filter_append, List.map_append, List.sum_append]

/-- The weight of a class does not depend on the order of the rows. -/
theorem weightOf_perm {rows others : List ℕ} (h : rows.Perm others) :
    t.weightOf w label rows = t.weightOf w label others :=
  ((h.filter _).map w).sum_eq

/-- The rows on both sides of a test weigh as much as all rows. -/
theorem weightOf_filter_add (p : ℕ → Bool) (rows : List ℕ) :
    t.weightOf w label (rows.filter p) + t.weightOf w label (rows.filter fun row => !p row) =
      t.weightOf w label rows := by
  rw [← weightOf_append]
  exact weightOf_perm (List.filter_append_perm p rows)

/-- Some of the rows weigh no more than all of them. -/
theorem weightOf_filter_le (p : ℕ → Bool) (rows : List ℕ) :
    t.weightOf w label (rows.filter p) ≤ t.weightOf w label rows :=
  Nat.le.intro (weightOf_filter_add p rows)

end Weights

section Doubles

variable {t : TrainingTable Float} {w : ℕ → ℕ} {rows : List ℕ} {label : Label}

/-- The rows that take part have whole weights, and no class weighs more than `2 ^ 53`. -/
structure HasWholeWeights (t : TrainingTable Float) (w : ℕ → ℕ) : Prop where
  whole : ∀ row ∈ t.weightedRows, IsWhole (t.weight row) (w row)
  small : ∀ label, t.weightOf w label t.weightedRows ≤ 2 ^ 53

/-- Every node of the arrays has, for each class, the exact weight of the rows whose decision path
passes it. -/
def WeighsPaths (t : TrainingTable Float) (w : ℕ → ℕ) (tree : FittedTree Float) : Prop :=
  ∀ node < tree.nodeCount, ∃ counts, tree.counts[node]? = some counts ∧
    ∀ label, IsWhole (counts.of label) (t.weightOf w label (t.rowsThrough tree node))

/-- Counts of rows with whole weights are exact. -/
theorem isWhole_countsOf (hwhole : ∀ row ∈ rows, IsWhole (t.weight row) (w row))
    (hsmall : t.weightOf w label rows ≤ 2 ^ 53) :
    IsWhole ((t.countsOf rows).of label) (t.weightOf w label rows) := by
  have hrun : ∀ (c : ClassCounts Float) (n : ℕ), IsWhole (c.of label) n →
      n + t.weightOf w label rows ≤ 2 ^ 53 →
        IsWhole ((rows.foldl t.addRow c).of label) (n + t.weightOf w label rows) := by
    clear hsmall
    induction rows with
    | nil => exact fun c n hc _ => hc
    | cons row rows ih =>
      intro c n hc hle
      rw [weightOf_cons, ← Nat.add_assoc] at hle ⊢
      rw [List.foldl_cons]
      apply ih fun other hother => hwhole other (List.mem_cons_of_mem row hother)
      · rw [of_addRow]
        split_ifs at hle ⊢
        · exact hc.add (hwhole row List.mem_cons_self) (by omega)
        · exact hc
      · exact hle
  have hzero : IsWhole ((ClassCounts.zero : ClassCounts Float).of label) 0 := by
    cases label <;> exact Binary64.isWhole_zero
  have hsum := hrun .zero 0 hzero (by omega)
  rwa [Nat.zero_add] at hsum

/-- Some of the rows that take part have exact counts. -/
theorem HasWholeWeights.isWhole_countsOf_filter (h : t.HasWholeWeights w) (p : ℕ → Bool)
    (label : Label) :
    IsWhole ((t.countsOf (t.weightedRows.filter p)).of label)
      (t.weightOf w label (t.weightedRows.filter p)) :=
  isWhole_countsOf (fun row hrow => h.whole row (List.mem_of_mem_filter hrow))
    ((weightOf_filter_le p t.weightedRows).trans (h.small label))

/-- Exact counts follow from counts along the paths. -/
theorem HasWholeWeights.weighsPaths (h : t.HasWholeWeights w) {tree : FittedTree Float}
    (hcounts : t.CountsPaths tree) : t.WeighsPaths w tree := by
  intro node hnode
  exact ⟨_, hcounts node hnode, h.isWhole_countsOf_filter _⟩

/-- Exact counts of the children of a split add up to the exact count of the split. -/
theorem HasWholeWeights.childrenAddUp (h : t.HasWholeWeights w) {tree : DecisionTree Float}
    (hsorts : t.Sorts t.weightedRows tree) : (FittedTree.ofTree tree).ChildrenAddUp := by
  intro node feature threshold left right counts hnode
  obtain ⟨rfl, hleft, hbelow, hright, habove⟩ := hsorts.children_counts hnode
  refine ⟨hleft, hright, _, _, hbelow, habove, fun label => ?_⟩
  unfold rowsThrough
  rw [List.filter_filter, List.filter_filter, (h.isWhole_countsOf_filter _ label).toRat_eq,
    (h.isWhole_countsOf_filter _ label).toRat_eq, (h.isWhole_countsOf_filter _ label).toRat_eq,
    ← Nat.cast_add, ← List.filter_filter, ← List.filter_filter, weightOf_filter_add]

/-- A tree is grown from every table of finite features.  Each node has the counts of the rows whose
decision path passes it, summed up in the order of the rows.  If the weights are whole and no class
weighs more than `2 ^ 53`, these counts are exact, and the children of each split add up to it. -/
theorem grow?_counts (t : TrainingTable Float) (hfinite : t.HasFiniteFeatures) (config : TreeConfig)
    (g : Generator) :
    ∃ grown after, t.grow? config g = some (grown, after) ∧
      t.CountsPaths (FittedTree.ofTree grown.tree) ∧
      ∀ w : ℕ → ℕ, t.HasWholeWeights w → t.WeighsPaths w (FittedTree.ofTree grown.tree) ∧
        (FittedTree.ofTree grown.tree).ChildrenAddUp := by
  obtain ⟨grown, after, hgrow⟩ := exists_grow? hfinite config g
  have hsorts : t.Sorts t.weightedRows grown.tree := sorts_of_growFrom? hgrow
  refine ⟨grown, after, hgrow, hsorts.countsPaths, fun w hw => ?_⟩
  exact ⟨hw.weighsPaths hsorts.countsPaths, hw.childrenAddUp hsorts⟩

/-- Rows with neighbours so far apart or so close that their middle overflows or is rounded to the
upper one, and with a class that weighs as much as is counted exactly. -/
def extremeRows : TrainingTable Float where
  features := #[#[-1.7976931348623157e308, 1.0000000000000002],
    #[1.7976931348623157e308, 1.0000000000000002],
    #[1.7976931348623157e308, 1.0000000000000004], #[-0.0, 5e-324]]
  labels := #[.negative, .positive, .negative, .positive]
  weights := #[9007199254740991.0, 3.0, 1.0, 0.0]

/-- The weights as whole numbers. -/
def extremeWeights : ℕ → ℕ
  | 0 => 2 ^ 53 - 1
  | 1 => 3
  | 2 => 1
  | _ => 0

/-- The counts of rows with extreme values and weights. -/
theorem grow?_counts_extremeRows :
    extremeRows.HasFiniteFeatures ∧ extremeRows.HasWholeWeights extremeWeights ∧
      ∃ grown after,
        extremeRows.grow? { maxFeatures := .all } (Generator.ofSeed 1) = some (grown, after) ∧
        extremeRows.CountsPaths (FittedTree.ofTree grown.tree) ∧
        extremeRows.WeighsPaths extremeWeights (FittedTree.ofTree grown.tree) ∧
        (FittedTree.ofTree grown.tree).ChildrenAddUp := by
  have hfinite : extremeRows.HasFiniteFeatures := by decide +kernel
  have hweights : extremeRows.HasWholeWeights extremeWeights := by
    constructor
    · decide +kernel
    · intro label
      cases label <;> decide +kernel
  obtain ⟨grown, after, hgrow, hcounts, hexact⟩ :=
    grow?_counts extremeRows hfinite { maxFeatures := .all } (Generator.ofSeed 1)
  exact ⟨hfinite, hweights, grown, after, hgrow, hcounts, hexact extremeWeights hweights⟩

/-- Four rows of two values.  Two weights of one are lost beside a weight of `2 ^ 53` unless they
are added up first. -/
def heavyRows : TrainingTable Float where
  features := #[#[0.0], #[1.0], #[1.0], #[1.0]]
  labels := #[.negative, .negative, .negative, .positive]
  weights := #[9007199254740992.0, 1.0, 1.0, 9007199254740992.0]

/-- The weights as whole numbers. -/
def heavyWeights : ℕ → ℕ
  | 0 => 2 ^ 53
  | 3 => 2 ^ 53
  | _ => 1

/-- Whole weights beyond `2 ^ 53` are rounded at the root. -/
theorem not_weighsPaths_heavyRows :
    heavyRows.HasFiniteFeatures ∧
      (∀ row ∈ heavyRows.weightedRows, IsWhole (heavyRows.weight row) (heavyWeights row)) ∧
      ∃ grown after,
        heavyRows.grow? { maxFeatures := .all } (Generator.ofSeed 1) = some (grown, after) ∧
        ¬ heavyRows.WeighsPaths heavyWeights (FittedTree.ofTree grown.tree) := by
  have hfinite : heavyRows.HasFiniteFeatures := by decide
  have hrounded : ¬ IsWhole ((heavyRows.countsOf heavyRows.weightedRows).of .negative)
      (heavyRows.weightOf heavyWeights .negative heavyRows.weightedRows) := by
    decide +kernel
  obtain ⟨grown, after, hgrow⟩ :=
    exists_grow? hfinite { maxFeatures := .all } (Generator.ofSeed 1)
  refine ⟨hfinite, by decide +kernel, grown, after, hgrow, fun hexact => hrounded ?_⟩
  have hpos : 0 < (FittedTree.ofTree grown.tree).nodeCount := by
    rw [FittedTree.nodeCount_ofTree]
    exact grown.tree.size_pos
  have hsorts : heavyRows.Sorts heavyRows.weightedRows grown.tree := sorts_of_growFrom? hgrow
  have hroot := hsorts.countsPaths 0 hpos
  obtain ⟨counts, hcounts, hwhole⟩ := hexact 0 hpos
  rw [hroot, Option.some.injEq] at hcounts
  have hnegative := hwhole .negative
  rwa [← hcounts, rowsThrough_root] at hnegative

end Doubles

end TrainingTable

end LeadScoring
