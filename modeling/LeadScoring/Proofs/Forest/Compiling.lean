import LeadScoring.Proofs.Forest.Training
import LeadScoring.Proofs.Scalar.Saturation
import LeadScoring.Proofs.Tree.Refusal
import LeadScoring.Proofs.Tree.Simulation

/-!
# Trained forests compile

Training accepts any doubles as features.  As long as none of them is negative infinity or
not-a-number, every cut separates rows and has a finite threshold, so training ends and its trees
compile.  Other features can lead to thresholds that are not-a-number: all rows lie on the right of
such a threshold, and a tree with one is refused.  No other defect occurs: weights and counts stay
finite, however many rows there are.

Main results:

- Theorem `TrainingTable.isValid_countsOf`: the counts of rows are counts.
- Theorem `Forest.train_compiles`: when training ends, and which of its trees compile.
-/

namespace LeadScoring

open Binary64 (BoundedBelow UpTo)

namespace TrainingTable

variable {t : TrainingTable Float}

/-- Sums of weights stay finite. -/
theorem isValid_countsOf (hweights : ∀ row, UpTo 2 (t.weight row)) (rows : List ℕ) :
    (t.countsOf rows).isValid = true := by
  obtain ⟨hnegative, hpositive⟩ := forall_countsOf (P := UpTo 56) (Binary64.upTo_zero 56)
    (fun x row hx => hx.add (hweights row) (by omega) (by omega)) rows
  exact Bool.and_eq_true_iff.2 ⟨hnegative.isCount (by omega), hpositive.isCount (by omega)⟩

/-- No entry of the rows is negative infinity or not-a-number. -/
def HasFeaturesBoundedBelow (t : TrainingTable Float) : Prop :=
  ∀ row ∈ t.features.toList, ∀ x ∈ row.toList, BoundedBelow x

namespace HasFeaturesBoundedBelow

variable (h : t.HasFeaturesBoundedBelow)

include h

/-- No value of a table of bounded features is not-a-number or negative infinity. -/
theorem boundedBelow_value (feature row : ℕ) : BoundedBelow (t.value feature row) := by
  rcases t.value_cases feature row with hzero | ⟨entries, hentries, hvalue⟩
  · rw [hzero]
    exact Or.inl (by decide)
  · exact h entries hentries _ hvalue

/-- Thresholds part the values of a table of bounded features. -/
theorem cutsApart : t.CutsApart := fun feature row next =>
  Cut.le_thresholdBetween (h.boundedBelow_value feature row) (h.boundedBelow_value feature next)

/-- Thresholds between values of a table of bounded features are finite. -/
theorem isFinite_threshold (feature row next : ℕ)
    (hle : ¬ t.value feature next ≤ t.value feature row) :
    Scalar.isFinite (Cut.thresholdBetween (t.value feature row) (t.value feature next)) = true :=
  Cut.isFinite_thresholdBetween (h.boundedBelow_value feature row)
    (h.boundedBelow_value feature next) hle

end HasFeaturesBoundedBelow

end TrainingTable

namespace Forest

variable {config : ForestConfig} {features : List (Array Float)} {targets : List ℕ}
  {trained : TrainedForest Float}

/-- Counting up by one stands still far below infinity. -/
theorem upTo_weight (config : ForestConfig) (features : Array (Array Float)) (labels : Array Label)
    (index row : ℕ) : UpTo 2 ((weightedTable config features labels index).1.weight row) :=
  forall_weight (Binary64.upTo_zero 2) (Binary64.upTo_one.mono (by omega))
    (fun _ hx => hx.add Binary64.upTo_one (by omega) (by omega)) config features labels index row

/-- No feature is negative infinity or not-a-number. -/
def FeaturesBoundedBelow (features : List (Array Float)) : Prop :=
  ∀ row ∈ features, ∀ x ∈ row.toList, BoundedBelow x

instance (features : List (Array Float)) : Decidable (FeaturesBoundedBelow features) :=
  inferInstanceAs (Decidable (∀ row ∈ features, ∀ x ∈ row.toList, BoundedBelow x))

/-- Weights do not touch the features. -/
theorem FeaturesBoundedBelow.weightedTable (h : FeaturesBoundedBelow features)
    (config : ForestConfig) (labels : Array Label) (index : ℕ) :
    (weightedTable config features.toArray labels index).1.HasFeaturesBoundedBelow :=
  h

/-- Every tree comes to an end if its features are bounded below or its depth is limited. -/
theorem exists_fitTree? (h : FeaturesBoundedBelow features ∨ config.tree.maxDepth ≠ none)
    (labels : Array Label) (index : ℕ) :
    ∃ grown, fitTree? config features.toArray labels index = some grown := by
  have hapart : config.tree.maxDepth = none →
      (weightedTable config features.toArray labels index).1.CutsApart := fun hnone =>
    ((h.resolve_right (not_not_intro hnone)).weightedTable config labels index).cutsApart
  obtain ⟨grown, after, hgrow⟩ := TrainingTable.exists_grow?_of_cutsApart hapart
    (weightedTable config features.toArray labels index).2
  exact ⟨grown, by rw [fitTree?_eq, hgrow]; rfl⟩

/-- Trees grown from weighted rows test features of the rows, and their leaves have counts. -/
theorem sound_of_grow? {labels : Array Label} {index width : ℕ} {g after : Generator}
    {grown : Grown Float} (hrows : ∀ row ∈ features, row.size = width) (hnonempty : features ≠ [])
    (h : (weightedTable config features.toArray labels index).1.grow? config.tree g =
      some (grown, after)) : grown.tree.Sound width := by
  have hsound := TrainingTable.sound_of_growFrom?
    (TrainingTable.isValid_countsOf (upTo_weight config features.toArray labels index)) h
  rwa [width_weightedTable hrows hnonempty] at hsound

/-- Training ends if no feature is negative infinity or not-a-number, or if the depth of trees is
limited.  A tree that it returns is refused for one defect only, a threshold that is not finite; and
in the first case it compiles over every vocabulary with as many names as the rows have features. -/
theorem train_compiles (config : ForestConfig) (features : List (Array Float))
    (targets : List ℕ) :
    (FeaturesBoundedBelow features ∨ config.tree.maxDepth ≠ none →
      train config features targets ≠ .error .unboundedGrowth) ∧
    ∀ trained, train config features targets = .ok trained → ∀ tree ∈ trained.forest.trees,
      ∀ v : Vocabulary, (∀ row ∈ features, row.size = v.size) →
        (FeaturesBoundedBelow features → ∃ c, tree.compile v = .ok c) ∧
        ∀ defect, tree.compile v = .error defect →
          ∃ node, defect = .nonFiniteThreshold node ∧ tree.SplitsAtNonFinite node := by
  refine ⟨fun h => train_ne_unboundedGrowth (exists_fitTree? h), ?_⟩
  intro trained htrain tree htree v hrows
  obtain ⟨hnonempty, labels, grown, -, -, htrees, hall⟩ := exists_grown_of_train htrain
  rw [htrees] at htree
  obtain ⟨g, hg, rfl⟩ := List.mem_map.1 htree
  obtain ⟨index, after, hgrow⟩ := hall g hg
  rcases FittedTree.compile_ofTree_cases (sound_of_grow? hrows hnonempty hgrow) with
    ⟨-, c, hcompile⟩ | ⟨hinfinite, node, hcompile, hnode⟩
  · refine ⟨fun _ => ⟨c, hcompile⟩, fun defect hdefect => ?_⟩
    rw [hcompile] at hdefect
    cases hdefect
  · refine ⟨fun hbounded => absurd ?_ hinfinite, fun defect hdefect => ?_⟩
    · exact TrainingTable.finiteThresholds_of_growFrom?
        (hbounded.weightedTable config labels index).isFinite_threshold hgrow
    · rw [hcompile] at hdefect
      cases hdefect
      exact ⟨node, rfl, hnode⟩

/-- One tree on all rows, with or without a greatest depth. -/
def singleTree (maxDepth : Option ℕ) : ForestConfig where
  treeCount := 1
  tree := { maxDepth, maxFeatures := .all }
  bootstrap := false

/-- Two rows of one feature. -/
def twoRows (lower upper : Float) : List (Array Float) :=
  [#[lower], #[upper]]

/-- Two rows of one value each fit a vocabulary of one name. -/
theorem size_of_mem_twoRows (lower upper : Float) :
    ∀ row ∈ twoRows lower upper, row.size = FittedTree.singleName.size := by
  simp only [twoRows, List.forall_mem_cons, List.not_mem_nil, false_imp_iff, implies_true, and_true]
  exact ⟨rfl, rfl⟩

/-- A run on two rows, one of either class, returns its tree if that comes to an end. -/
theorem exists_train_twoRows (maxDepth : Option ℕ) (lower upper : Float)
    (h : FeaturesBoundedBelow (twoRows lower upper) ∨ maxDepth ≠ none) :
    ∃ grown importances,
      fitTree? (singleTree maxDepth) (twoRows lower upper).toArray #[.negative, .positive] 0 =
        some grown ∧
      train (singleTree maxDepth) (twoRows lower upper) [0, 1] =
        .ok ⟨⟨[.ofTree grown.tree]⟩, importances⟩ := by
  obtain ⟨grown, hgrown⟩ : ∃ grown, fitTree? (singleTree maxDepth) (twoRows lower upper).toArray
      #[.negative, .positive] 0 = some grown :=
    exists_fitTree? h #[.negative, .positive] 0
  have hall : (List.range 1).mapM (fitTree? (singleTree maxDepth) (twoRows lower upper).toArray
      #[.negative, .positive]) = some [grown] :=
    Outcome.mapM_eq_some_iff.2 (.cons hgrown .nil)
  exact ⟨grown, _, hgrown, train_eq_ok_iff.2
    ⟨rfl, List.cons_ne_nil _ _, rfl, [.negative, .positive], 1, [grown], rfl, rfl, hall, rfl⟩⟩

/-- Positive infinity is no obstacle. -/
theorem train_compiles_positiveInfinity :
    FeaturesBoundedBelow (twoRows 0.0 (1.0 / 0.0)) ∧
      train (singleTree none) (twoRows 0.0 (1.0 / 0.0)) [0, 1] ≠ .error .unboundedGrowth ∧
      (∀ row ∈ twoRows 0.0 (1.0 / 0.0), row.size = FittedTree.singleName.size) ∧
      ∃ tree importances,
        train (singleTree none) (twoRows 0.0 (1.0 / 0.0)) [0, 1] = .ok ⟨⟨[tree]⟩, importances⟩ ∧
          ∃ c, tree.compile FittedTree.singleName = .ok c := by
  have hbounded : FeaturesBoundedBelow (twoRows 0.0 (1.0 / 0.0)) := by decide +kernel
  have hrows := size_of_mem_twoRows 0.0 (1.0 / 0.0)
  obtain ⟨hends, hcompiles⟩ := train_compiles (singleTree none) (twoRows 0.0 (1.0 / 0.0)) [0, 1]
  obtain ⟨grown, importances, -, htrain⟩ :=
    exists_train_twoRows none 0.0 (1.0 / 0.0) (Or.inl hbounded)
  have hcompile := (hcompiles _ htrain _ List.mem_cons_self FittedTree.singleName hrows).1 hbounded
  exact ⟨hbounded, hends (Or.inl hbounded), hrows, _, importances, htrain, hcompile⟩

/-! ### Not-a-number -/

/-- Two rows, one of either class, of which the second has no value. -/
def nanTable : TrainingTable Float where
  features := (twoRows 0.0 (0.0 / 0.0)).toArray
  labels := #[.negative, .positive]
  weights := #[1.0, 1.0]

/-- A cut at not-a-number, which leaves all rows on its right. -/
def stalledCut : Cut Float :=
  ⟨0, 0.0 / 0.0, 1.0⟩

section Stalled

variable {maxDepth : Option ℕ} (hdepth : maxDepth ∈ [none, some 1])

/-- A single tree without drawing is grown from the table of two rows itself. -/
theorem weightedTable_nanTable (maxDepth : Option ℕ) (index : ℕ) :
    (weightedTable (singleTree maxDepth) (twoRows 0.0 (0.0 / 0.0)).toArray #[.negative, .positive]
      index).1 = nanTable :=
  rfl

theorem weightedRows_nanTable : nanTable.weightedRows = [0, 1] := by
  decide +kernel

include hdepth

/-- The middle of a number and not-a-number is not-a-number, which does not reach the latter. -/
theorem bestCut?_nanTable (g : Generator) :
    nanTable.bestCut? (singleTree maxDepth).tree [0, 1] (nanTable.countsOf [0, 1]) g =
      (some stalledCut, (g.sampleDraws 1 1).2) := by
  have hsorted : nanTable.sortedBy 0 [0, 1] = [0, 1] := by
    apply List.mergeSort_of_pairwise
    decide +kernel
  have hsweep : ∀ maxDepth ∈ [none, some 1], nanTable.sweep (singleTree maxDepth).tree
      (nanTable.countsOf [0, 1]) 2 0 .zero 0 none [0, 1] = some stalledCut := by
    decide +kernel
  have hwidth : nanTable.width = 1 := rfl
  have hchoice : (singleTree maxDepth).tree.maxFeatures.resolve 1 = 1 := rfl
  rw [TrainingTable.bestCut?, hwidth, hchoice, Generator.sample_one]
  dsimp only
  rw [TrainingTable.bestCutOn?, List.foldl_cons, List.foldl_nil, hsorted, List.length_cons,
    List.length_singleton, hsweep maxDepth hdepth]

/-- The rows are of two classes. -/
theorem isFinal_nanTable :
    TrainingTable.isFinal (singleTree maxDepth).tree 0 [0, 1].length
      (nanTable.countsOf [0, 1]) = false := by
  have hfinal : ∀ maxDepth ∈ [none, some 1], TrainingTable.isFinal (singleTree maxDepth).tree 0
      [0, 1].length (nanTable.countsOf [0, 1]) = false := by
    decide +kernel
  exact hfinal maxDepth hdepth

end Stalled

/-- With a greatest depth the rows are split at not-a-number. -/
theorem not_finiteThresholds_nanTable {bound : ℕ} {g after : Generator} {grown : Grown Float}
    (h : nanTable.growFrom? (singleTree (some 1)).tree bound 0 [0, 1] g =
      some (grown, after)) : ¬ grown.tree.FiniteThresholds := by
  have hnan : Scalar.isFinite stalledCut.threshold = false := by decide +kernel
  rcases TrainingTable.growFrom?_cases h with ⟨-, ⟨hfinal, -⟩ | ⟨-, hnone⟩⟩ |
    ⟨less, cut, between, left, afterLeft, right, rfl, -, hcut, -, -, rfl⟩
  · rw [isFinal_nanTable (by simp)] at hfinal
    cases hfinal
  · rw [bestCut?_nanTable (by simp)] at hnone
    cases hnone
  · rw [bestCut?_nanTable (by simp), Prod.mk.injEq, Option.some.injEq] at hcut
    obtain ⟨rfl, -⟩ := hcut
    rintro ⟨hfinite, -⟩
    rw [hnan] at hfinite
    cases hfinite

/-- Without a greatest depth the same rows are split again and again. -/
theorem growFrom?_nanTable (bound depth : ℕ) (g : Generator) :
    nanTable.growFrom? (singleTree none).tree bound depth [0, 1] g = none := by
  have hright : ([0, 1].filter fun row => !nanTable.goesLeft stalledCut row) = [0, 1] := by
    decide +kernel
  rw [Option.eq_none_iff_forall_ne_some]
  induction bound using Nat.strong_induction_on generalizing depth g with
  | _ bound ih =>
    rintro ⟨grown, after⟩ hgrow
    rcases TrainingTable.growFrom?_cases hgrow with ⟨-, ⟨hfinal, -⟩ | ⟨-, hnone⟩⟩ |
      ⟨less, cut, between, left, afterLeft, right, rfl, -, hcut, -, hagain, -⟩
    · have hsplit := isFinal_nanTable (List.mem_cons_self : none ∈ [none, some 1])
      exact absurd (hsplit.symm.trans hfinal) Bool.false_ne_true
    · rw [bestCut?_nanTable (by simp)] at hnone
      cases hnone
    · rw [bestCut?_nanTable (by simp), Prod.mk.injEq, Option.some.injEq] at hcut
      obtain ⟨rfl, -⟩ := hcut
      rw [hright] at hagain
      exact ih less (Nat.lt_succ_self less) _ _ _ hagain

/-- Training on a number beside not-a-number gives up, since its splits leave one side empty for ever. -/
theorem train_nanTable :
    train (singleTree none) (twoRows 0.0 (0.0 / 0.0)) [0, 1] = .error .unboundedGrowth := by
  have hfit : fitTree? (singleTree none) (twoRows 0.0 (0.0 / 0.0)).toArray
      #[.negative, .positive] 0 = none := by
    rw [fitTree?_eq, weightedTable_nanTable, TrainingTable.grow?, weightedRows_nanTable,
      growFrom?_nanTable]
    rfl
  have hgrown : (List.range (singleTree none).treeCount).mapM (fitTree? (singleTree none)
      (twoRows 0.0 (0.0 / 0.0)).toArray #[.negative, .positive]) = none := by
    change [0].mapM _ = none
    rw [List.mapM_cons, hfit]
    rfl
  have hfault : (configFault? (singleTree none) : Option (TrainingError Float)) = none := rfl
  have hempty : (twoRows 0.0 (0.0 / 0.0)).isEmpty = false := rfl
  have hlength : (twoRows 0.0 (0.0 / 0.0)).length = [0, 1].length := rfl
  have hlabels : [0, 1].mapM Label.ofNat? = some [.negative, .positive] := rfl
  have hwidth : commonWidth? (twoRows 0.0 (0.0 / 0.0)) = some 1 := rfl
  simp [train, hfault, hempty, hlength, hlabels, hwidth, hgrown, throw, throwThe,
    MonadExceptOf.throw]

/-- A feature that is not-a-number gives such a threshold.  With a greatest depth the
tree is returned and refused, and without one growth never ends, however deep it may go. -/
theorem refused_or_endless_notANumber :
    (∃ tree importances, train (singleTree (some 1)) (twoRows 0.0 (0.0 / 0.0)) [0, 1] =
        .ok ⟨⟨[tree]⟩, importances⟩ ∧
        ∃ node, tree.compile FittedTree.singleName = .error (.nonFiniteThreshold node)) ∧
      (∀ bound depth g,
        nanTable.growFrom? (singleTree none).tree bound depth [0, 1] g = none) ∧
      train (singleTree none) (twoRows 0.0 (0.0 / 0.0)) [0, 1] = .error .unboundedGrowth := by
  refine ⟨?_, growFrom?_nanTable, train_nanTable⟩
  obtain ⟨grown, importances, hfit, htrain⟩ :=
    exists_train_twoRows (some 1) 0.0 (0.0 / 0.0) (Or.inr (Option.some_ne_none 1))
  refine ⟨_, importances, htrain, ?_⟩
  rw [fitTree?_eq, Option.map_eq_some_iff] at hfit
  obtain ⟨⟨grown, after⟩, hgrow, rfl⟩ := hfit
  have hsound := sound_of_grow? (size_of_mem_twoRows _ _) (List.cons_ne_nil _ _) hgrow
  rcases FittedTree.compile_ofTree_cases hsound with ⟨hfinite, -⟩ | ⟨-, node, hcompile, -⟩
  · rw [weightedTable_nanTable, TrainingTable.grow?, weightedRows_nanTable] at hgrow
    exact absurd hfinite (not_finiteThresholds_nanTable hgrow)
  · exact ⟨node, hcompile⟩

end Forest

end LeadScoring
