import LeadScoring.Proofs.Forest.Drawing
import LeadScoring.Proofs.Forest.Selection

/-!
# Expected answers are positive shares

Attribution weights the two children of a split by the rows that they cover.  In a grown tree they
cover the rows of the split, each on its own side, so the expected answer at every node is the share
of positive rows there.  At the root these are the rows that the tree was fitted on, each as often
as it was drawn, and the baseline of an explainer is the mean of their positive shares.

Main results:

- Definition `FittedTree.Expects`: the expected answer at a node, without a bound on the depth.
- Theorem `ClassCounts.rate_mix`: the rates of two parts make up the rate of the whole.
- Theorems `TrainingTable.Sorts.expectation_eq`, `TrainingTable.Sorts.expects_iff`: the expected
  answers of a tree that sorts its rows.
- Theorem `Forest.rate_weightedRows`: the share of positives among the rows that a tree is fitted
  on.
- Theorem `Forest.expected_rates_and_baseline`: grown trees, and explainers of trained forests.
-/

namespace LeadScoring

/-! ## Expected answers -/

namespace FittedTree

/-- The mean answer from a node on, weighted by the rows that the children cover. -/
inductive Expects (t : FittedTree ℚ) : ℕ → ℚ → Prop
  | leaf {node : ℕ} {counts : ClassCounts ℚ} (entry : t.node? node = some (.leaf counts)) :
      Expects t node (t.rateAt node)
  | split {node : ℕ} {feature left right : ℤ} {threshold x y : ℚ} {counts : ClassCounts ℚ}
      (entry : t.node? node = some (.split feature threshold left right counts))
      (leftPart : Expects t left.toNat x) (rightPart : Expects t right.toNat y) :
      Expects t node ((t.coverShares left.toNat right.toNat).1 * x +
        (t.coverShares left.toNat right.toNat).2 * y)

variable {t : FittedTree ℚ} {node : ℕ}

/-- There is one expected answer at most. -/
theorem Expects.unique {x y : ℚ} (hx : t.Expects node x) (hy : t.Expects node y) : x = y := by
  induction hx generalizing y with
  | leaf entry =>
    cases hy with
    | leaf => rfl
    | split other =>
      rw [entry] at other
      cases other
  | split entry _ _ ihl ihr =>
    cases hy with
    | leaf other =>
      rw [entry] at other
      cases other
    | split other leftPart rightPart =>
      rw [entry] at other
      cases other
      rw [ihl leftPart, ihr rightPart]

/-- Where the arrays describe a tree, its expectation is expected. -/
theorem expects_of_describes {tree : DecisionTree ℚ} {nodes : List ℕ}
    (h : t.Describes node tree nodes) : t.Expects node tree.expectation := by
  induction h with
  | leaf entry =>
    have hleaf := Expects.leaf entry
    rwa [rateAt_of_leaf entry] at hleaf
  | split entry _ _ _ leftPart rightPart ihl ihr =>
    have hsplit := Expects.split entry ihl ihr
    rwa [coverShares_of_describes leftPart rightPart] at hsplit

end FittedTree

/-! ## Rates of parts -/

namespace ClassCounts

variable {c l r whole : ClassCounts ℚ}

theorem total_eq (c : ClassCounts ℚ) : c.total = c.of .negative + c.of .positive :=
  rfl

/-- The share of positives among some rows makes up the positives, also where there are no rows. -/
theorem total_mul_rate (h : ∀ label, 0 ≤ c.of label) : c.total * c.rate = c.of .positive := by
  have hnegative := h .negative
  have hpositive := h .positive
  rw [rate]
  split_ifs with hpos
  · exact mul_div_cancel₀ _ (ne_of_gt hpos)
  · rw [total_eq, Exact.zero_eq] at hpos
    rw [Exact.zero_eq, mul_zero]
    linarith

/-- No rows have no positives among them. -/
theorem rate_eq_zero (h : c.total ≤ 0) : c.rate = 0 := by
  rw [rate]
  exact if_neg (not_lt.2 h)

theorem total_nonneg (h : ∀ label, 0 ≤ c.of label) : 0 ≤ c.total :=
  add_nonneg (h .negative) (h .positive)

/-- The rate is a quotient, also without rows. -/
theorem rate_eq_div (h : ∀ label, 0 ≤ c.of label) : c.rate = c.of .positive / c.total := by
  rcases (total_nonneg h).eq_or_lt with hzero | hpos
  · rw [rate_eq_zero hzero.ge, ← hzero, div_zero]
  · exact if_pos hpos

/-- Counts that add up for each class add up in total. -/
theorem total_add (h : ∀ label, l.of label + r.of label = whole.of label) :
    l.total + r.total = whole.total := by
  rw [total_eq, total_eq, total_eq, ← h, ← h]
  ring

/-- Rows that are taken apart: the rates of the parts, weighted by their shares of the rows, make up
the rate of the whole.  Without rows all rates are zero, whatever the shares. -/
theorem rate_mix (hl : ∀ label, 0 ≤ l.of label) (hr : ∀ label, 0 ≤ r.of label)
    (h : ∀ label, l.of label + r.of label = whole.of label) {x y : ℚ}
    (hshares : 0 < l.total + r.total →
      x = l.total / (l.total + r.total) ∧ y = r.total / (l.total + r.total)) :
    x * l.rate + y * r.rate = whole.rate := by
  have htotal := total_add h
  have hleft := total_nonneg hl
  have hright := total_nonneg hr
  by_cases hpos : 0 < l.total + r.total
  · obtain ⟨rfl, rfl⟩ := hshares hpos
    calc l.total / (l.total + r.total) * l.rate + r.total / (l.total + r.total) * r.rate
        = (l.total * l.rate + r.total * r.rate) / (l.total + r.total) := by ring
      _ = whole.of .positive / whole.total := by
        rw [total_mul_rate hl, total_mul_rate hr, h, htotal]
      _ = whole.rate := by
        rw [htotal] at hpos
        exact (if_pos hpos).symm
  · rw [rate_eq_zero (c := l) (by linarith), rate_eq_zero (c := r) (by linarith),
      rate_eq_zero (c := whole) (by linarith), mul_zero, mul_zero, add_zero]

end ClassCounts

/-! ## Grown trees -/

/-- The fractions of two children are their shares of the rows, if there are any. -/
theorem DecisionTree.childFractions_of_pos {left right : DecisionTree ℚ}
    (h : 0 < left.counts.total + right.counts.total) :
    childFractions left right =
      (left.counts.total / (left.counts.total + right.counts.total),
        right.counts.total / (left.counts.total + right.counts.total)) :=
  if_pos h

namespace TrainingTable

variable {t : TrainingTable ℚ} {rows : List ℕ} {tree : DecisionTree ℚ}

/-- The expected answer of a tree that sorts some rows is the share of positives among them. -/
theorem Sorts.expectation_eq (h : t.Sorts rows tree) (hweights : ∀ row ∈ rows, 0 ≤ t.weight row) :
    tree.expectation = (t.countsOf rows).rate := by
  induction h with
  | leaf rows => rfl
  | @split rows feature threshold left right leftPart rightPart ihl ihr =>
    have hleft : ∀ row ∈ rows.filter fun row => decide (t.value feature row ≤ threshold),
        0 ≤ t.weight row := fun row hrow => hweights row (List.mem_of_mem_filter hrow)
    have hright : ∀ row ∈ rows.filter fun row => !decide (t.value feature row ≤ threshold),
        0 ≤ t.weight row := fun row hrow => hweights row (List.mem_of_mem_filter hrow)
    change (DecisionTree.childFractions left right).1 * left.expectation +
      (DecisionTree.childFractions left right).2 * right.expectation = _
    rw [ihl hleft, ihr hright]
    refine ClassCounts.rate_mix (of_countsOf_nonneg hleft) (of_countsOf_nonneg hright)
      (of_countsOf_filter_add _ rows) fun hpos => ?_
    rw [← leftPart.counts_eq, ← rightPart.counts_eq] at hpos ⊢
    rw [DecisionTree.childFractions_of_pos hpos]
    exact ⟨rfl, rfl⟩

/-- At every node of a tree that sorts the rows of a table, the share of positives is expected. -/
theorem Sorts.expects_iff (h : t.Sorts t.weightedRows tree) {node : ℕ}
    (hnode : node < (FittedTree.ofTree tree).nodeCount) {x : ℚ} :
    (FittedTree.ofTree tree).Expects node x ↔ x = (FittedTree.ofTree tree).rateAt node := by
  obtain ⟨part, hstands, hsorts⟩ := h.exists_part_ofTree hnode
  have hdescribes := FittedTree.describes_of_standsAt hstands
  have hweights : ∀ row ∈ t.rowsThrough (FittedTree.ofTree tree) node, 0 ≤ t.weight row :=
    fun row hrow => (weight_pos_of_mem_weightedRows (List.mem_of_mem_filter hrow)).le
  have hexpects := FittedTree.expects_of_describes hdescribes
  rw [hsorts.expectation_eq hweights, ← hsorts.counts_eq,
    ← FittedTree.counts_of_describes hdescribes] at hexpects
  constructor
  · exact fun hx => hx.unique hexpects
  · rintro rfl
    exact hexpects

end TrainingTable

/-! ## Trained forests -/

namespace Forest

/-- The share of the rows whose target is one, each row as often as it is listed. -/
def positiveShare (targets rows : List ℕ) : ℚ :=
  (rows.countP fun row => targets[row]? = some 1 : ℕ) / (rows.length : ℕ)

/-- Labels are read from the targets at their positions. -/
theorem getD_labels {targets : List ℕ} {labels : List Label}
    (h : targets.mapM Label.ofNat? = some labels) (row : ℕ) :
    labels.toArray.getD row .negative = .positive ↔ targets[row]? = some 1 := by
  rw [Outcome.mapM_eq_some_iff] at h
  rw [Array.getD_eq_getD_getElem?, List.getElem?_toArray]
  induction h generalizing row with
  | nil => simp
  | @cons target label targets labels hlabel _ ih =>
    cases row with
    | succ row => exact ih row
    | zero =>
      have hread : ∀ n : ℕ, Label.ofNat? n = some label → (label = .positive ↔ n = 1)
        | 0, h => by cases h; decide
        | 1, h => by cases h; decide
        | n + 2, h => by cases h
      simpa using hread target hlabel

section Rates

variable {config : ForestConfig} {features : Array (Array ℚ)} {targets : List ℕ}
  {labels : List Label}

/-- The share of positives among the weighted rows of a tree is that among the rows that it is
fitted on. -/
theorem rate_weightedRows (htargets : targets.mapM Label.ofNat? = some labels)
    (hlabels : labels.length = features.size) (index : ℕ) :
    ((weightedTable config features labels.toArray index).1.countsOf
        (weightedTable config features labels.toArray index).1.weightedRows).rate =
      positiveShare targets (fittedRows config features.size index) := by
  generalize hcounts : (weightedTable config features labels.toArray index).1.countsOf
    (weightedTable config features labels.toArray index).1.weightedRows = counts
  have hof : ∀ label, counts.of label =
      ((fittedRows config features.size index).countP fun row =>
        labels.toArray.getD row .negative = label : ℕ) := by
    rw [← hcounts]
    exact of_countsOf_weightedRows hlabels
  have hpositive : ((fittedRows config features.size index).countP fun row =>
      labels.toArray.getD row .negative = .positive) =
        (fittedRows config features.size index).countP fun row => targets[row]? = some 1 := by
    refine List.countP_congr fun row _ => ?_
    rw [decide_eq_true_eq, decide_eq_true_eq, getD_labels htargets]
  have htotal : counts.total = ((fittedRows config features.size index).length : ℚ) := by
    rw [ClassCounts.total_eq, hof, hof, ← Nat.cast_add, add_comm,
      List.length_eq_countP_add_countP fun row => labels.toArray.getD row .negative = .positive]
    congr 2
    refine List.countP_congr fun row _ => ?_
    cases labels.toArray.getD row .negative <;> simp
  rw [ClassCounts.rate_eq_div (fun label => by rw [hof]; exact Nat.cast_nonneg _), htotal, hof,
    hpositive]
  rfl

end Rates

variable {config : ForestConfig} {features : List (Array ℚ)} {targets : List ℕ}
  {trained : TrainedForest ℚ} {v : Vocabulary} {kept : ℕ} {e : Explainer ℚ}

/-- The expected answer of a tree that sorts the rows of a table is the share of positives among
them. -/
theorem expectedValue_ofTree {t : TrainingTable ℚ} {tree : DecisionTree ℚ}
    (h : t.Sorts t.weightedRows tree) :
    (FittedTree.ofTree tree).expectedValue = (t.countsOf t.weightedRows).rate := by
  have hdescribes := FittedTree.describes_ofTree tree
  have hdepth := hdescribes.depth_le_nodeCount List.nodup_range
  rw [FittedTree.expectedValue, FittedTree.expectedFrom_of_describes hdescribes hdepth]
  exact h.expectation_eq fun row hrow => (TrainingTable.weight_pos_of_mem_weightedRows hrow).le

/-- The trees of a trained forest expect the shares of positives among the rows that each is fitted
on. -/
theorem expectedValues_of_train (h : train config features targets = .ok trained) :
    trained.forest.trees.map FittedTree.expectedValue =
      (List.range config.treeCount).map fun index =>
        positiveShare targets (fittedRows config features.length index) := by
  obtain ⟨-, labels, width, grown, htargets, hlabels, -, rfl, hgrown⟩ := forall₂_grown_of_train h
  rw [List.map_map]
  refine (map_eq_map_of_forall₂ hgrown fun index g hgrow => ?_).symm
  obtain ⟨after, hgrow⟩ := hgrow
  have hsize : features.length = features.toArray.size := rfl
  rw [Function.comp_apply, expectedValue_ofTree (TrainingTable.sorts_of_growFrom? hgrow), hsize]
  exact (rate_weightedRows htargets hlabels index).symm

/-- With exact arithmetic a tree is built from every table, and at each of its nodes exactly the
share of positives there is expected.  So the baseline of an explainer for a trained forest is the
mean, over its trees, of the share of positives among the rows that each is fitted on. -/
theorem expected_rates_and_baseline :
    (∀ (t : TrainingTable ℚ) (config : TreeConfig) (g : Generator), ∃ tree decreases after,
      t.build? config g = some (tree, decreases, after) ∧
        ∀ node < tree.nodeCount, ∀ x, tree.Expects node x ↔ x = tree.rateAt node) ∧
    ∀ (config : ForestConfig) (features : List (Array ℚ)) (targets : List ℕ)
      (trained : TrainedForest ℚ) (v : Vocabulary) (kept : ℕ) (e : Explainer ℚ)
      (values : Array ℚ),
      train config features targets = .ok trained →
      Explainer.ofForest trained.forest v kept = .ok e → values.size = v.size →
      ∃ a, e.attributionOf values = .ok a ∧
        a.baseline = ((List.range config.treeCount).map fun index =>
          positiveShare targets (fittedRows config features.length index)).sum /
            (config.treeCount : ℚ) := by
  constructor
  · intro t config g
    obtain ⟨grown, after, hgrow⟩ :=
      TrainingTable.exists_grow? (t := t) (fun _ _ _ _ => rfl) config g
    refine ⟨_, _, _, by rw [TrainingTable.build?, hgrow]; rfl, fun node hnode x => ?_⟩
    exact TrainingTable.Sorts.expects_iff (TrainingTable.sorts_of_growFrom? hgrow) hnode
  · intro config features targets trained v kept e values htrain he hvalues
    have hvocabulary : e.vocabulary = v := (Explainer.forall₂_of_ofForest he).1
    have hcount : trained.forest.trees.length = config.treeCount := by
      have hlength := congrArg List.length (expectedValues_of_train htrain)
      simpa using hlength
    refine ⟨e.attributeAligned values, ?_, ?_⟩
    · rw [Explainer.attributionOf, hvocabulary, if_pos hvalues]
    · rw [Explainer.baseline_attributeAligned he, expectedValues_of_train htrain, hcount]

/-- Two trees on drawn rows. -/
def drawnTrees : ForestConfig where
  treeCount := 2
  tree := { maxFeatures := .all }
  seed := 2

/-- Three rows, the later ones of which are positive. -/
def threeRows : List (Array ℚ) :=
  [#[0, 0], #[1, 1], #[2, 0]]

/-- Two rows, the first one of which counts twice. -/
def twiceNegative : TrainingTable ℚ where
  features := #[#[0], #[1]]
  labels := #[.negative, .positive]
  weights := #[2, 1]

/-- A third of the weighted rows is positive.  Of the trees, one is fitted on the rows 0, 1 and 1,
the other one on positive rows only. -/
theorem expected_rates_and_baseline_threeRows :
    (∃ tree decreases after,
      twiceNegative.build? { maxFeatures := .all } (.ofSeed 1) = some (tree, decreases, after) ∧
        tree.nodeCount = 3 ∧ tree.Expects 0 (1 / 3)) ∧
    ∃ trained e a, train drawnTrees threeRows [0, 1, 1] = .ok trained ∧
      trained.forest.trees.map FittedTree.nodeCount = [3, 1] ∧
      Explainer.ofForest trained.forest Explainer.twoNumbers 3 = .ok e ∧
      (#[2, 1] : Array ℚ).size = Explainer.twoNumbers.size ∧
      e.attributionOf #[2, 1] = .ok a ∧
      (List.range 2).map (fittedRows drawnTrees 3) = [[0, 1, 1], [2, 2, 1]] ∧
      a.baseline = (2 / 3 + 1) / 2 := by
  obtain ⟨hbuilds, hexplains⟩ := expected_rates_and_baseline
  constructor
  · obtain ⟨tree, decreases, after, hbuild, hexpects⟩ :=
      hbuilds twiceNegative { maxFeatures := .all } (.ofSeed 1)
    have hrun : (twiceNegative.build? { maxFeatures := .all } (.ofSeed 1)).map (fun built =>
        (built.1.nodeCount, built.1.rateAt 0)) = some (3, 1 / 3) := by
      cbv
    rw [hbuild] at hrun
    obtain ⟨hnodes, hrate⟩ := Prod.mk.inj (Option.some.inj hrun)
    exact ⟨tree, decreases, after, hbuild, hnodes,
      (hexpects 0 (hnodes.symm ▸ by decide) _).2 hrate.symm⟩
  · have hrun : (train drawnTrees threeRows [0, 1, 1]).toOption.map (fun trained =>
        (trained.forest.trees.map FittedTree.nodeCount,
          (Explainer.ofForest trained.forest Explainer.twoNumbers 3).toOption.map (·.kept))) =
            some ([3, 1], some 3) := by
      cbv
    obtain ⟨trained, htrain, hresult⟩ := Outcome.exists_of_map_toOption hrun
    obtain ⟨hnodes, hkept⟩ := Prod.mk.inj hresult
    obtain ⟨e, he, -⟩ := Outcome.exists_of_map_toOption hkept
    obtain ⟨a, ha, hbaseline⟩ := hexplains drawnTrees threeRows [0, 1, 1] trained
      Explainer.twoNumbers 3 e #[2, 1] htrain he rfl
    exact ⟨trained, e, a, htrain, hnodes, he, rfl, ha, by decide +kernel,
      hbaseline.trans (by decide +kernel)⟩

end Forest

end LeadScoring
