import LeadScoring.Proofs.Attribution.Consistency
import LeadScoring.Proofs.Forest.BestCut
import LeadScoring.Proofs.Forest.Training

/-!
# Importances of features

Every split credits its feature with the impurity decrease that it brings, which is positive.  A
tree's credits are scaled to sum to one, added up over the trees and scaled again.  So a feature has
an importance exactly if some tree tests it, and the importances sum to one unless no tree has a
split.

Main results:

- Definitions `DecisionTree.tests`, `FittedTree.Tests` and theorem `FittedTree.tests_ofTree_iff`:
  the features that a tree tests.
- Theorem `TrainingTable.creditsTests_of_growFrom?`: the credits of a grown tree are positive and go
  to the features that it tests.
- Theorems `Forest.addShares_eq`, `Forest.importancesOf_eq`: one tree's share in the sums, and what
  all trees make of them.
- Theorem `Forest.importances_of_train`: the importances of a trained forest.
-/

namespace LeadScoring

open ShapleyPath (creditTo creditTo_cons)

/-! ## Tested features -/

/-- The features that a tree tests, in pre-order. -/
def DecisionTree.tests {α : Type} : DecisionTree α → List ℕ
  | .leaf _ => []
  | .split feature _ _ left right => feature :: (left.tests ++ right.tests)

namespace FittedTree

variable {α : Type}

/-- Some node of the arrays tests a feature. -/
def Tests (t : FittedTree α) (feature : ℤ) : Prop :=
  ∃ node threshold left right counts,
    t.node? node = some (.split feature threshold left right counts)

variable [Scalar α]

/-- The rows of a tree test the features that the tree tests. -/
theorem mem_rowsOf_iff_tests {tree : DecisionTree α} {feature : ℤ} (slot : ℕ) :
    (∃ row ∈ rowsOf slot tree, row.feature = feature ∧ feature ≠ leafFeature) ↔
      ∃ f ∈ tree.tests, (f : ℤ) = feature := by
  induction tree generalizing slot with
  | leaf counts => simp [rowsOf, DecisionTree.tests, eq_comm]
  | split test threshold counts left right ihl ihr =>
    have htest : ((test : ℤ) = feature ∧ feature ≠ leafFeature) ↔ (test : ℤ) = feature := by
      refine and_iff_left_of_imp ?_
      rintro rfl
      rw [leafFeature]
      omega
    simp only [rowsOf, DecisionTree.tests, List.mem_cons, List.mem_append, or_and_right, exists_or,
      exists_eq_left, htest, ihl, ihr]

/-- The arrays of a tree test the features that the tree tests. -/
theorem tests_ofTree_iff {tree : DecisionTree α} {feature : ℤ} :
    (ofTree tree).Tests feature ↔ ∃ f ∈ tree.tests, (f : ℤ) = feature := by
  rw [← mem_rowsOf_iff_tests 0]
  constructor
  · rintro ⟨node, threshold, left, right, counts, hnode⟩
    have hlt : node < (rowsOf 0 tree).length := by
      have hnode := lt_nodeCount_of_node? hnode
      rwa [nodeCount_ofTree, ← length_rowsOf 0] at hnode
    rw [node?_ofTree (List.getElem?_eq_getElem hlt)] at hnode
    split_ifs at hnode with hfeature
    · cases hnode
    · rw [Option.some.injEq, FittedNode.split.injEq] at hnode
      rw [hnode.1] at hfeature
      exact ⟨_, List.getElem_mem hlt, hnode.1, hfeature⟩
  · rintro ⟨row, hrow, rfl, hfeature⟩
    obtain ⟨node, hnode⟩ := List.mem_iff_getElem?.1 hrow
    exact ⟨node, _, _, _, _, by rw [node?_ofTree hnode, if_neg hfeature]⟩

/-- The arrays of a tree test something exactly if the tree has a split. -/
theorem exists_tests_ofTree_iff {tree : DecisionTree α} :
    (∃ feature, (ofTree tree).Tests feature) ↔ tree.tests ≠ [] := by
  simp only [tests_ofTree_iff]
  constructor
  · rintro ⟨_, f, hf, -⟩
    exact List.ne_nil_of_mem hf
  · intro hne
    obtain ⟨f, hf⟩ := List.exists_mem_of_ne_nil _ hne
    exact ⟨f, f, hf, rfl⟩

end FittedTree

/-! ## Credits of grown trees -/

/-- The credits of a grown tree go to the features that it tests, one for each split; all of them
are positive. -/
structure Grown.CreditsTests (width : ℕ) (grown : Grown ℚ) : Prop where
  features_eq : grown.credits.map Prod.fst = grown.tree.tests
  gain_pos : ∀ credit ∈ grown.credits, 0 < credit.2
  feature_lt : ∀ credit ∈ grown.credits, credit.1 < width

namespace TrainingTable

variable {t : TrainingTable ℚ} {config : TreeConfig}

/-- The best cut of some rows gains something. -/
theorem gain_pos_of_bestCut? {rows : List ℕ} {counts : ClassCounts ℚ} {g after : Generator}
    {cut : Cut ℚ} (h : t.bestCut? config rows counts g = (some cut, after)) : 0 < cut.gain := by
  obtain ⟨feature, -, hcut⟩ := List.mem_flatMap.1 (mem_candidates_of_bestCut? h)
  obtain ⟨_, _, _, _, -, hcut⟩ := mem_candidatesOn_iff.1 hcut
  exact resolution_pos.trans (not_le.1 (cutBetween?_eq_some_iff.1 hcut).2.2.2.1)

/-- Grown trees credit exactly the features that they test. -/
theorem creditsTests_of_growFrom? {bound depth : ℕ} {rows : List ℕ} {g after : Generator}
    {grown : Grown ℚ} (h : t.growFrom? config bound depth rows g = some (grown, after)) :
    grown.CreditsTests t.width := by
  refine growFrom?_grown_induction (P := fun _ grown => grown.CreditsTests t.width) ?_ ?_ h
  · exact fun rows => ⟨rfl, by simp, by simp⟩
  · intro rows cut g after left right hcut hleft hright
    constructor
    · rw [List.map_cons, List.map_append, hleft.features_eq, hright.features_eq]
      rfl
    · simp only [List.forall_mem_cons, List.forall_mem_append]
      exact ⟨gain_pos_of_bestCut? hcut, hleft.gain_pos, hright.gain_pos⟩
    · simp only [List.forall_mem_cons, List.forall_mem_append]
      exact ⟨(exists_neighbours_of_bestCut? hcut).1, hleft.feature_lt, hright.feature_lt⟩

end TrainingTable

/-! ## Shares of a tree -/

namespace Grown

variable {width : ℕ} {grown : Grown ℚ} {feature : ℕ}

/-- What all splits gain. -/
def totalGain (grown : Grown ℚ) : ℚ :=
  (grown.credits.map Prod.snd).sum

/-- The share of a feature in what all splits gain. -/
def share (grown : Grown ℚ) (feature : ℕ) : ℚ :=
  creditTo feature grown.credits / grown.totalGain

/-- The credits of all features are all credits. -/
theorem sum_creditTo {credits : List (ℕ × ℚ)} (h : ∀ credit ∈ credits, credit.1 < width) :
    ((List.range width).map fun i => creditTo i credits).sum = (credits.map Prod.snd).sum := by
  change ∑ i ∈ Finset.range width, creditTo i credits = _
  induction credits with
  | nil => simp [creditTo]
  | cons credit credits ih =>
    rw [List.forall_mem_cons] at h
    simp only [creditTo_cons, Finset.sum_add_distrib, ih h.2, Finset.sum_ite_eq, Finset.mem_range,
      if_pos h.1, List.map_cons, List.sum_cons]

namespace CreditsTests

/-- No feature is credited with a loss. -/
theorem creditTo_nonneg (h : grown.CreditsTests width) (feature : ℕ) :
    0 ≤ creditTo feature grown.credits :=
  Exact.sum_map_nonneg fun credit hcredit =>
    (h.gain_pos credit (List.mem_of_mem_filter hcredit)).le

theorem totalGain_nonneg (h : grown.CreditsTests width) : 0 ≤ grown.totalGain :=
  Exact.sum_map_nonneg fun credit hcredit => (h.gain_pos credit hcredit).le

/-- A feature has no credit exactly if it is not tested. -/
theorem creditTo_eq_zero_iff (h : grown.CreditsTests width) :
    creditTo feature grown.credits = 0 ↔ feature ∉ grown.tree.tests := by
  rw [← h.features_eq, List.mem_map, creditTo, Exact.sum_map_eq_zero_iff fun credit hcredit =>
    (h.gain_pos credit (List.mem_of_mem_filter hcredit)).le]
  constructor
  · rintro hzero ⟨credit, hcredit, rfl⟩
    exact (h.gain_pos credit hcredit).ne' (hzero credit (List.mem_filter.2 ⟨hcredit, by simp⟩))
  · intro hnone credit hcredit
    obtain ⟨hcredit, hfeature⟩ := List.mem_filter.1 hcredit
    exact absurd ⟨credit, hcredit, of_decide_eq_true hfeature⟩ hnone

/-- Nothing is gained exactly by a tree without splits. -/
theorem totalGain_eq_zero_iff (h : grown.CreditsTests width) :
    grown.totalGain = 0 ↔ grown.tree.tests = [] := by
  rw [← h.features_eq, List.map_eq_nil_iff, totalGain, Exact.sum_map_eq_zero_iff
    fun credit hcredit => (h.gain_pos credit hcredit).le, List.eq_nil_iff_forall_not_mem]
  exact forall_congr' fun credit =>
    imp_congr_right fun hcredit => iff_of_false (h.gain_pos credit hcredit).ne' (by simp)

theorem share_nonneg (h : grown.CreditsTests width) (feature : ℕ) : 0 ≤ grown.share feature :=
  div_nonneg (h.creditTo_nonneg feature) h.totalGain_nonneg

/-- A feature has no share exactly if it is not tested. -/
theorem share_eq_zero_iff (h : grown.CreditsTests width) :
    grown.share feature = 0 ↔ feature ∉ grown.tree.tests := by
  rw [share, div_eq_zero_iff, h.creditTo_eq_zero_iff, h.totalGain_eq_zero_iff]
  refine or_iff_left_of_imp fun hnil => ?_
  rw [hnil]
  exact List.not_mem_nil

/-- The shares of a tree sum to one unless it has no split. -/
theorem sum_share (h : grown.CreditsTests width) :
    ((List.range width).map grown.share).sum = if grown.tree.tests = [] then 0 else 1 := by
  have hsum : ((List.range width).map grown.share).sum = grown.totalGain / grown.totalGain := by
    have hdiv := Finset.sum_div (Finset.range width) (fun i => creditTo i grown.credits)
      grown.totalGain
    exact hdiv.symm.trans (congrArg (· / grown.totalGain) (sum_creditTo h.feature_lt))
  rw [hsum]
  split_ifs with hnil
  · rw [h.totalGain_eq_zero_iff.2 hnil, div_zero]
  · exact div_self fun hzero => hnil (h.totalGain_eq_zero_iff.1 hzero)

end CreditsTests

end Grown

/-! ## Importances -/

namespace Forest

variable {width : ℕ} {grown : List (Grown ℚ)}

/-- Each tree adds its shares; one without splits adds nothing. -/
theorem addShares_eq {tree : Grown ℚ} (h : tree.CreditsTests width) (sums : ℕ → ℚ) :
    addShares ((List.range width).map sums) (tree.decreases width).toList =
      (List.range width).map fun i => sums i + tree.share i := by
  have hdecreases : (tree.decreases width).toList =
      (List.range width).map fun i => creditTo i tree.credits :=
    ShapleyPath.toList_foldl_modify tree.credits width
  have htotal : ((List.range width).map fun i => creditTo i tree.credits).sum = tree.totalGain :=
    Grown.sum_creditTo h.feature_lt
  rw [addShares, hdecreases, Exact.sum_eq, htotal]
  split_ifs with hpos
  · rw [addAligned, List.map_map, List.zipWith_map, List.zipWith_self]
    rfl
  · have hzero : tree.totalGain = 0 := le_antisymm (not_lt.1 hpos) h.totalGain_nonneg
    refine List.map_congr_left fun i _ => ?_
    rw [Grown.share, hzero, div_zero, add_zero]

/-- The shares of a feature in all trees. -/
def shares (grown : List (Grown ℚ)) (feature : ℕ) : ℚ :=
  (grown.map (·.share feature)).sum

/-- All trees add their shares. -/
theorem foldl_addShares_eq (h : ∀ tree ∈ grown, tree.CreditsTests width) (sums : ℕ → ℚ) :
    grown.foldl (fun sums tree => addShares sums (tree.decreases width).toList)
        ((List.range width).map sums) =
      (List.range width).map fun i => sums i + shares grown i := by
  induction grown generalizing sums with
  | nil => simp [shares]
  | cons tree grown ih =>
    rw [List.forall_mem_cons] at h
    rw [List.foldl_cons, addShares_eq h.1, ih h.2]
    simp only [shares, List.map_cons, List.sum_cons, add_assoc]

theorem shares_nonneg (h : ∀ tree ∈ grown, tree.CreditsTests width) (feature : ℕ) :
    0 ≤ shares grown feature :=
  Exact.sum_map_nonneg fun tree htree => (h tree htree).share_nonneg feature

/-- A feature has no share in any tree exactly if no tree tests it. -/
theorem shares_eq_zero_iff (h : ∀ tree ∈ grown, tree.CreditsTests width) {feature : ℕ} :
    shares grown feature = 0 ↔ ∀ tree ∈ grown, feature ∉ tree.tree.tests := by
  rw [shares, Exact.sum_map_eq_zero_iff fun tree htree => (h tree htree).share_nonneg feature]
  exact forall₂_congr fun tree htree => (h tree htree).share_eq_zero_iff

/-- The number of trees with a split. -/
def splitCount (grown : List (Grown ℚ)) : ℕ :=
  grown.countP fun tree => tree.tree.tests ≠ []

/-- No tree has a split exactly if no tree tests anything. -/
theorem splitCount_eq_zero_iff : splitCount grown = 0 ↔ ∀ tree ∈ grown, tree.tree.tests = [] := by
  simp [splitCount, List.countP_eq_zero]

/-- All shares sum to the number of trees with a split. -/
theorem sum_shares (h : ∀ tree ∈ grown, tree.CreditsTests width) :
    ((List.range width).map (shares grown)).sum = (splitCount grown : ℚ) := by
  change ∑ i ∈ Finset.range width, (grown.map (Grown.share · i)).sum = _
  rw [Explainer.sum_map_sum]
  induction grown with
  | nil => rfl
  | cons tree grown ih =>
    rw [List.forall_mem_cons] at h
    have htree : ∑ i ∈ Finset.range width, tree.share i = _ := h.1.sum_share
    rw [List.map_cons, List.sum_cons, ih h.2, htree, splitCount, splitCount, List.countP_cons]
    by_cases hnil : tree.tree.tests = [] <;> simp [hnil, add_comm]

/-- The importance of a feature is its mean share in the trees with a split. -/
theorem importancesOf_eq (h : ∀ tree ∈ grown, tree.CreditsTests width) :
    importancesOf width grown =
      (List.range width).map fun i => shares grown i / (splitCount grown : ℚ) := by
  have hsums : grown.foldl (fun sums tree => addShares sums (tree.decreases width).toList)
      (List.replicate width 0) = (List.range width).map (shares grown) := by
    have hstart : List.replicate width (0 : ℚ) = (List.range width).map fun _ => 0 := by simp
    rw [hstart, foldl_addShares_eq h]
    simp only [zero_add]
  unfold importancesOf
  generalize hfold : List.foldl _ _ grown = sums
  obtain rfl : sums = (List.range width).map (shares grown) := hfold.symm.trans hsums
  dsimp only
  rw [Exact.sum_eq, sum_shares h]
  split_ifs with hpos
  · rw [List.map_map]
    rfl
  · have hnone : splitCount grown = 0 :=
      Nat.eq_zero_of_not_pos fun hsome => hpos (Nat.cast_pos.2 hsome)
    refine List.map_congr_left fun i _ => ?_
    have hzero : shares grown i = 0 := by
      rw [shares_eq_zero_iff h]
      intro tree htree
      rw [splitCount_eq_zero_iff.1 hnone tree htree]
      exact List.not_mem_nil
    rw [hzero, zero_div]

/-- A feature has no importance exactly if no tree tests it. -/
theorem importance_eq_zero_iff (h : ∀ tree ∈ grown, tree.CreditsTests width) {feature : ℕ} :
    shares grown feature / (splitCount grown : ℚ) = 0 ↔
      ∀ tree ∈ grown, feature ∉ tree.tree.tests := by
  rw [div_eq_zero_iff, shares_eq_zero_iff h, Nat.cast_eq_zero, splitCount_eq_zero_iff]
  refine or_iff_left_of_imp fun hnone tree htree => ?_
  rw [hnone tree htree]
  exact List.not_mem_nil

/-- The importances sum to one if some tree has a split. -/
theorem sum_importances (h : ∀ tree ∈ grown, tree.CreditsTests width)
    (hsplit : splitCount grown ≠ 0) :
    ((List.range width).map fun i => shares grown i / (splitCount grown : ℚ)).sum = 1 := by
  have hdiv := Finset.sum_div (Finset.range width) (shares grown) (splitCount grown : ℚ)
  have hsum : ∑ i ∈ Finset.range width, shares grown i = (splitCount grown : ℚ) := sum_shares h
  rw [hsum, div_self (Nat.cast_ne_zero.2 hsplit)] at hdiv
  exact hdiv.symm

/-! ## Trained forests -/

variable {config : ForestConfig} {features : List (Array ℚ)} {targets : List ℕ}
  {trained : TrainedForest ℚ}

/-- What a trained forest is made of: trees grown from rows of one width, with their credits. -/
theorem exists_credited_of_train (h : train config features targets = .ok trained) :
    ∃ width grown, (∀ row ∈ features, row.size = width) ∧
      (∀ tree ∈ grown, Grown.CreditsTests width tree) ∧
      trained = ⟨⟨grown.map fun tree => .ofTree tree.tree⟩, importancesOf width grown⟩ := by
  obtain ⟨hnonempty, labels, width, grown, -, -, hwidth, rfl, hgrown⟩ := forall₂_grown_of_train h
  have hrows := size_eq_of_commonWidth? hwidth
  refine ⟨width, grown, hrows, fun tree htree => ?_, rfl⟩
  obtain ⟨i, hi, rfl⟩ := List.getElem_of_mem htree
  obtain ⟨after, hgrow⟩ := hgrown.get (by rw [hgrown.length_eq]; exact hi) hi
  have hcredits := TrainingTable.creditsTests_of_growFrom? hgrow
  rwa [width_weightedTable hrows hnonempty] at hcredits

/-- There is one importance for each feature, and none is negative.  A feature has none exactly if
no split of any tree tests it.  The importances sum to one if some tree has a split, and otherwise
all of them are zero. -/
theorem importances_of_train (h : train config features targets = .ok trained) :
    (∀ row ∈ features, trained.importances.length = row.size) ∧
      (∀ x ∈ trained.importances, 0 ≤ x) ∧
      (∀ (feature : ℕ) (x : ℚ), trained.importances[feature]? = some x →
        (x = 0 ↔ ∀ tree ∈ trained.forest.trees, ¬ tree.Tests feature)) ∧
      ((∃ tree ∈ trained.forest.trees, ∃ feature, tree.Tests feature) →
        trained.importances.sum = 1) ∧
      ((∀ tree ∈ trained.forest.trees, ∀ feature, ¬ tree.Tests feature) →
        ∀ x ∈ trained.importances, x = 0) := by
  obtain ⟨width, grown, hrows, hcredits, rfl⟩ := exists_credited_of_train h
  simp only [importancesOf_eq hcredits, List.forall_mem_map]
  refine ⟨fun row hrow => ?_, fun i _ => ?_, fun feature x hx => ?_, ?_, fun hnone i _ => ?_⟩
  · rw [List.length_map, List.length_range, hrows row hrow]
  · exact div_nonneg (shares_nonneg hcredits i) (Nat.cast_nonneg _)
  · rw [List.getElem?_map, Option.map_eq_some_iff] at hx
    obtain ⟨i, hi, rfl⟩ := hx
    obtain ⟨_, rfl⟩ := List.getElem?_eq_some_iff.1 hi
    rw [List.getElem_range, importance_eq_zero_iff hcredits]
    refine forall₂_congr fun tree _ => not_congr ?_
    rw [FittedTree.tests_ofTree_iff]
    simp
  · rintro ⟨_, hmem, hsplit⟩
    obtain ⟨tree, htree, rfl⟩ := List.mem_map.1 hmem
    exact sum_importances hcredits fun hzero =>
      FittedTree.exists_tests_ofTree_iff.1 hsplit (splitCount_eq_zero_iff.1 hzero tree htree)
  · rw [importance_eq_zero_iff hcredits]
    intro tree htree hmem
    exact hnone tree htree i (FittedTree.tests_ofTree_iff.2 ⟨i, hmem, rfl⟩)

/-- Two trees, each split on one feature drawn. -/
def twoTrees : ForestConfig where
  treeCount := 2
  tree := { maxFeatures := .count 1 }
  seed := 0

/-- Four rows whose first feature tells the classes apart. -/
def fourRows : List (Array ℚ) :=
  [#[0, 0], #[1, 1], #[2, 0], #[3, 1]]

/-- One of the trees has no cut on the feature that it draws, and so no split. -/
theorem importances_of_train_fourRows :
    ∃ trained, train twoTrees fourRows [0, 0, 1, 1] = .ok trained ∧
      trained.forest.trees.map FittedTree.nodeCount = [1, 3] ∧ trained.importances = [1, 0] ∧
      (∀ tree ∈ trained.forest.trees, ¬ tree.Tests 1) ∧
      (∃ tree ∈ trained.forest.trees, tree.Tests 0) ∧ trained.importances.sum = 1 := by
  have hrun : (train twoTrees fourRows [0, 0, 1, 1]).toOption.map (fun trained =>
      (trained.forest.trees.map FittedTree.nodeCount, trained.importances)) =
        some ([1, 3], [1, 0]) := by
    cbv
  obtain ⟨trained, htrain, hresult⟩ := Outcome.exists_of_map_toOption hrun
  obtain ⟨hnodes, himportances⟩ := Prod.mk.inj hresult
  obtain ⟨-, -, hzero, hsum, -⟩ := importances_of_train htrain
  have hfirst : ∃ tree ∈ trained.forest.trees, tree.Tests 0 := by
    by_contra hnone
    simp only [not_exists, not_and] at hnone
    have hone := (hzero 0 1 (by rw [himportances]; rfl)).2 hnone
    exact one_ne_zero hone
  obtain ⟨tree, htree, htests⟩ := hfirst
  exact ⟨trained, htrain, hnodes, himportances, (hzero 1 0 (by rw [himportances]; rfl)).1 rfl,
    ⟨tree, htree, htests⟩, hsum ⟨tree, htree, 0, htests⟩⟩

end Forest

end LeadScoring
