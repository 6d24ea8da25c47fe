import LeadScoring.Forest.Training
import LeadScoring.Proofs.Forest.Growth
import LeadScoring.Proofs.Related
import LeadScoring.Proofs.Tree.Layout

/-!
# Trained forests

Rows count as often as they were drawn, so no weight is negative, and every tree of a trained forest
is laid out from a grown one.

Main results:

- Definition `Forest.weightedTable`: the rows that a tree is grown from.
- Theorem `Forest.forall_weight`: their weights are counted up from zero or one.
- Theorems `Forest.train_eq_ok_iff`, `Forest.forall₂_grown_of_train`: what a training run checks and
  grows.
- Theorem `Forest.trees_of_train`: the trees of a forest are well formed and small.
- Definition `ForestConfig.IsValid` and theorem `Forest.exists_train`: parameters and rows on which a
  run succeeds.
-/

namespace LeadScoring

/-- Parameters that a training run accepts. -/
structure ForestConfig.IsValid (config : ForestConfig) : Prop where
  treeCount_ne_zero : config.treeCount ≠ 0
  minSamplesLeaf_ne_zero : config.tree.minSamplesLeaf ≠ 0
  two_le_minSamplesSplit : 2 ≤ config.tree.minSamplesSplit

namespace Forest

variable {config : ForestConfig} {features : List (Array ℚ)} {targets : List ℕ}
  {trained : TrainedForest ℚ}

/-! ## Weighted rows -/

section Weights

variable {α : Type} [Scalar α] {P : α → Prop}

/-- The weighted rows that the tree of an index is grown from, and the generator after their weights
have been drawn. -/
def weightedTable (config : ForestConfig) (features : Array (Array α)) (labels : Array Label)
    (index : ℕ) : TrainingTable α × Generator :=
  let (weights, g) := rowWeights config features.size
    (Generator.ofSeed (treeSeed config.seed (UInt64.ofNat index)))
  (⟨features, labels, weights⟩, g)

theorem fitTree?_eq (config : ForestConfig) (features : Array (Array α)) (labels : Array Label)
    (index : ℕ) :
    fitTree? config features labels index =
      ((weightedTable config features labels index).1.grow? config.tree
        (weightedTable config features labels index).2).map (·.1) :=
  rfl

/-- What holds of zero and is kept by counting one more holds of how often a row is drawn. -/
theorem forall_mem_drawCounts (hzero : P 0) (hone : ∀ x, P x → P (x + 1)) (n : ℕ)
    (draws : List ℕ) : ∀ x ∈ (drawCounts n draws : Array α), P x := by
  have hrun : ∀ counts : Array α, (∀ x ∈ counts, P x) →
      ∀ x ∈ draws.foldl (fun counts i => counts.modify i (· + 1)) counts, P x := by
    induction draws with
    | nil => exact fun _ hcounts => hcounts
    | cons draw draws ih =>
      intro counts hcounts
      refine ih _ fun x hx => ?_
      obtain ⟨i, hi, rfl⟩ := Array.mem_iff_getElem.1 hx
      rw [Array.getElem_modify]
      have hi_counts : i < counts.size := by simpa using hi
      have hold := hcounts counts[i] (Array.getElem_mem hi_counts)
      split_ifs
      · exact hone _ hold
      · exact hold
  refine hrun _ fun x hx => ?_
  rw [Array.mem_replicate] at hx
  rw [hx.2]
  exact hzero

/-- What holds of zero and one and is kept by counting one more holds of every row's weight. -/
theorem forall_weight (hzero : P 0) (hstart : P 1) (hone : ∀ x, P x → P (x + 1))
    (config : ForestConfig) (features : Array (Array α)) (labels : Array Label) (index row : ℕ) :
    P ((weightedTable config features labels index).1.weight row) := by
  have hweights : ∀ x ∈ (weightedTable config features labels index).1.weights, P x := by
    change ∀ x ∈ (rowWeights config features.size _ : Array α × Generator).1, P x
    unfold rowWeights
    split
    · exact forall_mem_drawCounts hzero hone _ _
    · intro x hx
      dsimp only at hx
      rw [Array.mem_replicate] at hx
      rw [hx.2]
      exact hstart
  rw [TrainingTable.weight, Array.getD_eq_getD_getElem?]
  cases hget : (weightedTable config features labels index).1.weights[row]? with
  | none => exact hzero
  | some x => exact hweights x (Array.mem_of_getElem? hget)

end Weights

/-! ## Trees -/

section Grown

variable {α : Type} [Scalar α] {config : ForestConfig} {features : List (Array α)}
  {targets : List ℕ} {trained : TrainedForest α}

/-- The features of a tree are those of the rows. -/
theorem width_weightedTable {width : ℕ} (hrows : ∀ row ∈ features, row.size = width)
    (hnonempty : features ≠ []) (labels : Array Label) (index : ℕ) :
    (weightedTable config features.toArray labels index).1.width = width := by
  obtain ⟨row, rows, rfl⟩ := List.exists_cons_of_ne_nil hnonempty
  have hwidth : row.size = width := hrows row List.mem_cons_self
  simpa [TrainingTable.width, weightedTable] using hwidth

/-- What a successful training run has checked, and the trees that it has grown. -/
theorem train_eq_ok_iff :
    train config features targets = .ok trained ↔
      (configFault? config : Option (TrainingError α)) = none ∧ features ≠ [] ∧
        features.length = targets.length ∧
        ∃ labels width grown, targets.mapM Label.ofNat? = some labels ∧
          commonWidth? features = some width ∧
          (List.range config.treeCount).mapM
            (fitTree? config features.toArray labels.toArray) = some grown ∧
          trained = ⟨⟨grown.map fun g => .ofTree g.tree⟩, importancesOf width grown⟩ := by
  unfold train
  cases hfault : (configFault? config : Option (TrainingError α)) with
  | some fault => simp [throw, throwThe, MonadExceptOf.throw, bind, Except.bind]
  | none =>
    simp only [Outcome.guard_eq_ok_iff, List.isEmpty_iff, not_not, true_and, ne_eq]
    refine and_congr_right fun _ => and_congr_right fun _ => ?_
    cases hlabels : targets.mapM Label.ofNat? with
    | none => simp [throw, throwThe, MonadExceptOf.throw]
    | some labels =>
      cases hwidth : commonWidth? features with
      | none => simp [throw, throwThe, MonadExceptOf.throw]
      | some width =>
        cases hgrown : (List.range config.treeCount).mapM
            (fitTree? config features.toArray labels.toArray) with
        | none => simp [hgrown, throw, throwThe, MonadExceptOf.throw]
        | some grown => simp [hgrown, pure, Except.pure, eq_comm]

omit [Scalar α] in
/-- Rows with a common width have it. -/
theorem size_eq_of_commonWidth? {width : ℕ} (h : commonWidth? features = some width) :
    ∀ row ∈ features, row.size = width := by
  unfold commonWidth? at h
  split at h
  · cases h
  · rename_i row rows
    split_ifs at h with hwrong
    cases h
    rw [Bool.or_eq_true, not_or, List.any_eq_true, not_exists] at hwrong
    intro other hother
    rcases List.mem_cons.1 hother with rfl | hother
    · rfl
    · have hequal := hwrong.2 other
      simpa [hother] using hequal

/-- A successful training run grows the trees of all indices from their weighted rows, lays them out
and sums up their importances. -/
theorem forall₂_grown_of_train (h : train config features targets = .ok trained) :
    features ≠ [] ∧ ∃ labels width grown, targets.mapM Label.ofNat? = some labels ∧
      labels.length = features.length ∧ commonWidth? features = some width ∧
      trained = ⟨⟨grown.map fun g => .ofTree g.tree⟩, importancesOf width grown⟩ ∧
      List.Forall₂ (fun index g => ∃ after,
          (weightedTable config features.toArray labels.toArray index).1.grow? config.tree
            (weightedTable config features.toArray labels.toArray index).2 = some (g, after))
        (List.range config.treeCount) grown := by
  obtain ⟨-, hnonempty, hlength, labels, width, grown, hlabels, hwidth, hgrown, htrained⟩ :=
    train_eq_ok_iff.1 h
  refine ⟨hnonempty, labels, width, grown, hlabels, ?_, hwidth, htrained, ?_⟩
  · rw [hlength]
    exact (Outcome.mapM_eq_some_iff.1 hlabels).length_eq.symm
  · refine (Outcome.mapM_eq_some_iff.1 hgrown).imp fun index g hfit => ?_
    rw [fitTree?_eq, Option.map_eq_some_iff] at hfit
    obtain ⟨⟨g, after⟩, hgrow, rfl⟩ := hfit
    exact ⟨after, hgrow⟩

/-- The trees of a trained forest are laid out from trees grown from the weighted rows. -/
theorem exists_grown_of_train (h : train config features targets = .ok trained) :
    features ≠ [] ∧ ∃ (labels : Array Label) (grown : List (Grown α)),
      labels.size = features.length ∧ grown ≠ [] ∧
        trained.forest.trees = grown.map (fun g => .ofTree g.tree) ∧
        ∀ g ∈ grown, ∃ index after,
          (weightedTable config features.toArray labels index).1.grow? config.tree
            (weightedTable config features.toArray labels index).2 = some (g, after) := by
  obtain ⟨hnonempty, labels, width, grown, -, hlength, -, rfl, hall⟩ := forall₂_grown_of_train h
  refine ⟨hnonempty, labels.toArray, grown, hlength, ?_, rfl, ?_⟩
  · rintro rfl
    have hfault := (train_eq_ok_iff.1 h).1
    have hcount := hall.length_eq
    rw [List.length_range, List.length_nil] at hcount
    rw [configFault?, if_pos hcount] at hfault
    cases hfault
  · intro g hg
    obtain ⟨i, hi, rfl⟩ := List.getElem_of_mem hg
    exact ⟨_, hall.get (by rw [hall.length_eq]; exact hi) hi⟩

/-- All trees come to an end if every tree does. -/
theorem exists_mapM_fitTree? {labels : Array Label}
    (h : ∀ index, ∃ grown, fitTree? config features.toArray labels index = some grown) (n : ℕ) :
    ∃ grown, (List.range n).mapM (fitTree? config features.toArray labels) = some grown := by
  simp only [Outcome.mapM_eq_some_iff]
  exact exists_forall₂_iff.2 fun index _ => h index

/-- Training does not fail for its trees if every tree comes to an end. -/
theorem train_ne_unboundedGrowth
    (h : ∀ labels index, ∃ grown, fitTree? config features.toArray labels index = some grown) :
    train config features targets ≠ .error .unboundedGrowth := by
  unfold train
  cases hfault : (configFault? config : Option (TrainingError α)) with
  | some fault =>
    have hother : fault ≠ .unboundedGrowth := by
      unfold configFault? at hfault
      split_ifs at hfault <;> cases hfault <;> simp
    simpa [throw, throwThe, MonadExceptOf.throw, bind, Except.bind] using hother
  | none =>
    simp only [Outcome.guard_ne_error_iff, ne_eq, reduceCtorEq, not_false_eq_true, implies_true,
      true_and]
    intro _ _
    cases hlabels : targets.mapM Label.ofNat? with
    | none => simp [throw, throwThe, MonadExceptOf.throw]
    | some labels =>
      cases hwidth : commonWidth? features with
      | none => simp [throw, throwThe, MonadExceptOf.throw]
      | some width =>
        obtain ⟨grown, hgrown⟩ := exists_mapM_fitTree? (h labels.toArray) config.treeCount
        simp [hgrown, pure, Except.pure]

end Grown

/-- The trees of a trained forest are the layouts of well-formed trees, and each has at most two
nodes for each row, less one. -/
theorem trees_of_train (h : train config features targets = .ok trained) {width : ℕ}
    (hrows : ∀ row ∈ features, row.size = width) :
    trained.forest.trees ≠ [] ∧
      ∃ trees : List (DecisionTree ℚ), trained.forest.trees = trees.map FittedTree.ofTree ∧
        ∀ tree ∈ trees, tree.WellFormed width ∧ tree.size + 1 ≤ 2 * features.length := by
  obtain ⟨hnonempty, labels, grown, hlabels, hgrown, htrees, hall⟩ := exists_grown_of_train h
  refine ⟨?_, grown.map Grown.tree, by rw [htrees, List.map_map]; rfl, ?_⟩
  · rw [htrees]
    exact fun hnil => hgrown (List.map_eq_nil_iff.1 hnil)
  · intro tree htree
    obtain ⟨g, hg, rfl⟩ := List.mem_map.1 htree
    obtain ⟨index, after, hgrow⟩ := hall g hg
    have hone : (0 : ℚ) ≤ 1 := by norm_num
    have hweights := forall_weight (P := fun x : ℚ => 0 ≤ x) (le_refl 0) hone
      (fun x hx => add_nonneg hx hone) config features.toArray labels index
    obtain ⟨hformed, hsize⟩ := TrainingTable.grow?_spec hweights hgrow
    rw [width_weightedTable hrows hnonempty] at hformed
    change g.tree.size + 1 ≤ 2 * max 1 labels.size at hsize
    have hpos := List.length_pos_of_ne_nil hnonempty
    rw [hlabels, max_eq_right (by omega)] at hsize
    exact ⟨hformed, hsize⟩

/-! ## Runs that succeed -/

section Success

variable {α : Type} {features : List (Array α)} {width : ℕ}

/-- Nothing is wrong exactly with valid parameters. -/
theorem configFault?_eq_none_iff :
    (configFault? config : Option (TrainingError α)) = none ↔ config.IsValid := by
  unfold configFault?
  split_ifs with htrees hleaf hsplit
  · exact iff_of_false not_false fun h => h.treeCount_ne_zero htrees
  · exact iff_of_false not_false fun h => h.minSamplesLeaf_ne_zero hleaf
  · refine iff_of_false not_false fun h => ?_
    exact Nat.not_le_of_lt hsplit h.two_le_minSamplesSplit
  · exact iff_of_true rfl ⟨htrees, hleaf, Nat.le_of_not_lt hsplit⟩

/-- Rows that are equally wide and not empty have a common width. -/
theorem commonWidth?_eq (hnonempty : features ≠ []) (hrows : ∀ row ∈ features, row.size = width)
    (hwidth : 0 < width) : commonWidth? features = some width := by
  obtain ⟨row, rows, rfl⟩ := List.exists_cons_of_ne_nil hnonempty
  rw [List.forall_mem_cons] at hrows
  obtain ⟨hrow, hrows⟩ := hrows
  have hsame : ∀ other ∈ rows, other.size = row.size := fun other hother =>
    (hrows other hother).trans hrow.symm
  have hne : row.size ≠ 0 := by omega
  rw [commonWidth?, if_neg, hrow]
  simpa [hne] using hsame

/-- The targets of labels are read back as the labels. -/
theorem mapM_ofNat?_toNat (labels : List Label) :
    (labels.map Label.toNat).mapM Label.ofNat? = some labels := by
  rw [Outcome.mapM_eq_some_iff, List.forall₂_map_left_iff, List.forall₂_same]
  intro label _
  cases label <;> rfl

/-- Training on labelled rows succeeds if the parameters are valid and the rows are equally wide and
have finite values. -/
theorem exists_train [Scalar α] [SplitsBetween α] (hconfig : config.IsValid) {labels : List Label}
    (hnonempty : features ≠ []) (hlength : features.length = labels.length)
    (hrows : ∀ row ∈ features, row.size = width) (hwidth : 0 < width)
    (hfinite : ∀ row ∈ features, ∀ x ∈ row.toList, Scalar.isFinite x = true) :
    ∃ trained, train config features (labels.map Label.toNat) = .ok trained := by
  have hfit : ∀ index, ∃ grown, fitTree? config features.toArray labels.toArray index =
      some grown := by
    intro index
    have htable : (weightedTable config features.toArray labels.toArray index).1.HasFiniteFeatures :=
      hfinite
    obtain ⟨grown, after, hgrow⟩ := TrainingTable.exists_grow? htable config.tree
      (weightedTable config features.toArray labels.toArray index).2
    exact ⟨grown, by rw [fitTree?_eq, hgrow]; rfl⟩
  obtain ⟨grown, hgrown⟩ := exists_mapM_fitTree? hfit config.treeCount
  exact ⟨_, train_eq_ok_iff.2 ⟨configFault?_eq_none_iff.2 hconfig, hnonempty,
    by rw [List.length_map, hlength], labels, width, grown, mapM_ofNat?_toNat labels,
    commonWidth?_eq hnonempty hrows hwidth, hgrown, rfl⟩⟩

end Success

end Forest

end LeadScoring
