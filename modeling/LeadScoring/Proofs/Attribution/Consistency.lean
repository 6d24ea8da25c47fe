import LeadScoring.Proofs.Artifact.Acceptance
import LeadScoring.Proofs.Attribution.NodeGame
import LeadScoring.Proofs.Scorer.Wrapping
import LeadScoring.Proofs.Tree.Layout

/-!
# Attributions of forests

An explainer adds the contributions of all trees up and divides by their number.  Read exactly, its
contributions are mean Shapley values of the games of the fitted trees, and they sum up to the
distance between the score and the baseline.

Main results:

- Theorem `Explainer.ofForest_eq_ok_iff`: which forests have an explainer, and which one.
- Theorem `Explainer.contributions_eq_mean_shapleyValue`: the contributions of a vector.
- Theorem `Explainer.attribution_agrees_with_scorers`: score, baseline and total.
- Theorem `Explainer.not_predicts_lopsided`: a tree with more nodes than child entries can tell
  apart.
-/

namespace LeadScoring

/-! ## Sums of contributions -/

namespace ShapleyPath

theorem creditTo_cons (feature : ℕ) (credit : ℕ × ℚ) (credits : List (ℕ × ℚ)) :
    creditTo feature (credit :: credits) =
      (if credit.1 = feature then credit.2 else 0) + creditTo feature credits := by
  by_cases h : credit.1 = feature <;> simp [creditTo, h]

/-- What is credited by parts is credited as a whole. -/
theorem creditTo_flatMap {β : Type} (feature : ℕ) (f : β → List (ℕ × ℚ)) (xs : List β) :
    creditTo feature (xs.flatMap f) = (xs.map fun x => creditTo feature (f x)).sum := by
  induction xs with
  | nil => rfl
  | cons x xs ih => rw [List.flatMap_cons, creditTo_append, ih, List.map_cons, List.sum_cons]

/-- Adding contributions to the entries of an array adds to every entry what its feature gets. -/
theorem getElem?_foldl_modify (credits : List (ℕ × ℚ)) (sums : Array ℚ) (i : ℕ) :
    (credits.foldl (fun sums credit => sums.modify credit.1 (· + credit.2)) sums)[i]? =
      sums[i]?.map (· + creditTo i credits) := by
  induction credits generalizing sums with
  | nil => simp [creditTo]
  | cons credit credits ih =>
    rw [List.foldl_cons, ih, Array.getElem?_modify, creditTo_cons]
    by_cases h : credit.1 = i
    · rw [if_pos h, if_pos h, Option.map_map]
      congr 1
      funext x
      exact add_assoc x credit.2 (creditTo i credits)
    · rw [if_neg h, if_neg h, zero_add]

/-- Contributions added to an array of zeros leave at every entry what its feature gets. -/
theorem toList_foldl_modify (credits : List (ℕ × ℚ)) (n : ℕ) :
    (credits.foldl (fun sums credit => sums.modify credit.1 (· + credit.2))
        (Array.replicate n 0)).toList =
      (List.range n).map fun i => creditTo i credits := by
  apply List.ext_getElem?
  intro i
  rw [Array.getElem?_toList, getElem?_foldl_modify, Array.getElem?_replicate, List.getElem?_map]
  by_cases hi : i < n
  · rw [if_pos hi, List.getElem?_range hi, Option.map_some, Option.map_some, zero_add]
  · rw [if_neg hi, List.getElem?_eq_none (by simpa using hi)]
    rfl

end ShapleyPath

namespace Explainer

open ShapleyPath

/-- What a vector contributes to the features, over all trees. -/
theorem toList_contributionSums (e : Explainer ℚ) (values : Array ℚ) :
    (e.contributionSums values).toList =
      (List.range e.vocabulary.size).map fun i =>
        (e.trees.map fun tree => creditTo i (tree.credits values)).sum := by
  simp only [← creditTo_flatMap]
  exact toList_foldl_modify _ _

/-! ## Explainers -/

/-- A forest has an explainer exactly if it compiles; the explainer holds the unfolded trees. -/
theorem ofForest_eq_ok_iff {f : Forest ℚ} {v : Vocabulary} {kept : ℕ} {e : Explainer ℚ} :
    ofForest f v kept = .ok e ↔
      (∃ a, Artifact.compile f v = .ok a) ∧
        ⟨v, f.trees.filterMap fun t => (t.unfold v.size).toOption, kept⟩ = e := by
  rw [ofForest]
  simp only [Outcome.bind_eq_ok_iff, Outcome.pure_eq_ok_iff, exists_and_right]

/-- An explainer loses none of the trees that unfold. -/
theorem filterMap_unfold {v : Vocabulary} {fitted : List (FittedTree ℚ)}
    {trees : List (DecisionTree ℚ)}
    (h : List.Forall₂ (fun t tree => FittedTree.unfold t v.size = .ok tree) fitted trees) :
    fitted.filterMap (fun t => (t.unfold v.size).toOption) = trees := by
  induction h with
  | nil => rfl
  | cons htree _ ih => rw [List.filterMap_cons, htree, ih]; rfl

/-- The parts of an explainer: the vocabulary, and the unfolded trees in the order of the forest. -/
theorem forall₂_of_ofForest {f : Forest ℚ} {v : Vocabulary} {kept : ℕ} {e : Explainer ℚ}
    (h : ofForest f v kept = .ok e) :
    e.vocabulary = v ∧ e.kept = kept ∧
      List.Forall₂ (fun t tree => FittedTree.unfold t v.size = .ok tree) f.trees e.trees := by
  obtain ⟨⟨a, hcompile⟩, rfl⟩ := ofForest_eq_ok_iff.1 h
  obtain ⟨trees, hunfold, -⟩ := Artifact.exists_trees_of_compile hcompile
  refine ⟨rfl, rfl, ?_⟩
  rw [filterMap_unfold hunfold]
  exact hunfold

section Attributed

variable {f : Forest ℚ} {v : Vocabulary} {kept : ℕ} {e : Explainer ℚ}

/-- The contributions are the mean Shapley values of the fitted trees' games. -/
theorem contributions_attributeAligned (h : ofForest f v kept = .ok e) (values : Array ℚ) :
    (e.attributeAligned values).contributions =
      (List.range v.size).map fun i =>
        (f.trees.map fun t => shapleyValue v.size (t.coalitionValue values) i).sum /
          (f.trees.length : ℚ) := by
  obtain ⟨hvocabulary, -, hunfold⟩ := forall₂_of_ofForest h
  have hformed := wellFormed_of_forall₂ hunfold
  have hcredits : ∀ i < v.size,
      (e.trees.map fun tree => creditTo i (tree.credits values)).sum =
        (f.trees.map fun t => shapleyValue v.size (t.coalitionValue values) i).sum := by
    intro i hi
    congr 1
    refine (map_eq_map_of_forall₂ hunfold fun t tree htree => ?_).symm
    rw [FittedTree.coalitionValue_of_unfold htree,
      DecisionTree.creditTo_credits values hi (FittedTree.wellFormed_of_unfold htree)]
  rw [attributeAligned]
  dsimp only
  rw [toList_contributionSums, hvocabulary, List.map_map, ← hunfold.length_eq]
  refine List.map_congr_left fun i hi => ?_
  rw [Function.comp_apply, hcredits i (List.mem_range.1 hi)]

/-- The score is the prediction of the forest. -/
theorem score_attributeAligned (h : ofForest f v kept = .ok e) (values : Array ℚ) :
    (e.attributeAligned values).score = f.predict values := by
  obtain ⟨-, -, hunfold⟩ := forall₂_of_ofForest h
  obtain ⟨⟨a, hcompile⟩, -⟩ := ofForest_eq_ok_iff.1 h
  have htrees : f.trees.isEmpty = false := by
    rw [List.isEmpty_eq_false_iff]
    exact (Artifact.compile_eq_ok_iff.1 hcompile).1
  rw [Forest.predict, htrees, map_predict_of_unfold hunfold, Exact.mean_eq, List.length_map]
  simp only [attributeAligned, Exact.foldl_add_eq, Exact.zero_eq, zero_add]
  rfl

/-- The baseline is the mean of the trees' expected answers. -/
theorem baseline_attributeAligned (h : ofForest f v kept = .ok e) (values : Array ℚ) :
    (e.attributeAligned values).baseline =
      (f.trees.map FittedTree.expectedValue).sum / (f.trees.length : ℚ) := by
  obtain ⟨-, -, hunfold⟩ := forall₂_of_ofForest h
  have hexpected : f.trees.map FittedTree.expectedValue = e.trees.map DecisionTree.expectation :=
    map_eq_map_of_forall₂ hunfold fun _ _ htree => FittedTree.expectedValue_of_unfold htree
  rw [hexpected, hunfold.length_eq]
  simp only [attributeAligned, Exact.foldl_add_eq, Exact.zero_eq, zero_add]

/-- Sums over players and trees may change places. -/
theorem sum_map_sum {β : Type} (players : Finset ℕ) (xs : List β) (g : ℕ → β → ℚ) :
    ∑ i ∈ players, (xs.map (g i)).sum = (xs.map fun x => ∑ i ∈ players, g i x).sum := by
  induction xs with
  | nil => simp
  | cons x xs ih => simp only [List.map_cons, List.sum_cons, Finset.sum_add_distrib, ih]

/-- What all features contribute to the game of a fitted tree. -/
theorem sum_shapleyValue_of_unfold {t : FittedTree ℚ} {tree : DecisionTree ℚ} {n : ℕ}
    (h : t.unfold n = .ok tree) (values : Array ℚ) :
    ∑ i ∈ Finset.range n, shapleyValue n (t.coalitionValue values) i =
      t.predict values - t.expectedValue := by
  rw [FittedTree.coalitionValue_of_unfold h, sum_shapleyValue,
    DecisionTree.coalitionValue_range values (FittedTree.wellFormed_of_unfold h),
    DecisionTree.coalitionValue_empty, FittedTree.predict_of_unfold h,
    FittedTree.expectedValue_of_unfold h]

/-- The contributions sum up to the distance between the score and the baseline. -/
theorem total_attributeAligned (h : ofForest f v kept = .ok e) (values : Array ℚ) :
    (e.attributeAligned values).total =
      (e.attributeAligned values).score - (e.attributeAligned values).baseline := by
  obtain ⟨-, -, hunfold⟩ := forall₂_of_ofForest h
  have hsum : ∀ g : ℕ → ℚ, ((List.range v.size).map g).sum = ∑ i ∈ Finset.range v.size, g i :=
    fun _ => rfl
  have htrees : (f.trees.map fun t =>
        ∑ i ∈ Finset.range v.size, shapleyValue v.size (t.coalitionValue values) i) =
      e.trees.map fun tree => tree.predict values - tree.expectation := by
    refine map_eq_map_of_forall₂ hunfold fun t tree htree => ?_
    rw [sum_shapleyValue_of_unfold htree, FittedTree.predict_of_unfold htree,
      FittedTree.expectedValue_of_unfold htree]
  have hdifference : (e.trees.map fun tree => tree.predict values - tree.expectation).sum =
      (e.trees.map (DecisionTree.predict values)).sum -
        (e.trees.map DecisionTree.expectation).sum :=
    Multiset.sum_map_sub (m := (e.trees : Multiset (DecisionTree ℚ)))
  rw [Attribution.total, Exact.sum_eq, contributions_attributeAligned h, hsum, ← Finset.sum_div,
    sum_map_sum, htrees, hdifference, sub_div, hunfold.length_eq]
  simp only [attributeAligned, Exact.foldl_add_eq, Exact.zero_eq, zero_add]

/-- The contribution of every feature to a vector's score is the mean, over the trees, of its
Shapley value in the game that the node arrays define. -/
theorem contributions_eq_mean_shapleyValue (h : ofForest f v kept = .ok e) (values : Array ℚ)
    (hvalues : values.size = v.size) :
    ∃ a, e.attributionOf values = .ok a ∧
      a.contributions = (List.range v.size).map fun i =>
        (f.trees.map fun t => shapleyValue v.size (t.coalitionValue values) i).sum /
          (f.trees.length : ℚ) := by
  obtain ⟨hvocabulary, -, -⟩ := forall₂_of_ofForest h
  refine ⟨e.attributeAligned values, ?_, contributions_attributeAligned h values⟩
  rw [attributionOf, hvocabulary, if_pos hvalues]

/-- A tree that tests a feature twice on one path and has two children without rows. -/
def repeatedTest : FittedTree ℚ where
  feature := #[0, -2, 0, 1, -2, -2, -2]
  threshold := #[1 / 2, -2, 3 / 2, 0, -2, -2, -2]
  childrenLeft := #[1, -1, 3, 5, -1, -1, -1]
  childrenRight := #[2, -1, 4, 6, -1, -1, -1]
  counts := #[⟨3, 3⟩, ⟨2, 1⟩, ⟨1, 2⟩, ⟨0, 0⟩, ⟨1, 2⟩, ⟨0, 0⟩, ⟨0, 0⟩]

/-- A vocabulary of two numeric fields. -/
def twoNumbers : Vocabulary :=
  .ofNames ["Page Views", "Downloads"]
    [⟨"Page Views", .numeric, []⟩, ⟨"Downloads", .numeric, []⟩]

/-- There is an explainer of the tree that tests a feature twice. -/
theorem exists_explainer_repeatedTest :
    ∃ e, ofForest ⟨[repeatedTest]⟩ twoNumbers 3 = .ok e := by
  have hok : (ofForest ⟨[repeatedTest]⟩ twoNumbers 3).isOk = true := by decide +kernel
  cases he : ofForest ⟨[repeatedTest]⟩ twoNumbers 3 with
  | ok e => exact ⟨e, rfl⟩
  | error reason =>
    rw [he] at hok
    cases hok

/-- The contributions of a vector in the tree that tests a feature twice. -/
theorem contributions_repeatedTest :
    ∃ e, ofForest ⟨[repeatedTest]⟩ twoNumbers 3 = .ok e ∧
      (#[1, 2] : Array ℚ).size = twoNumbers.size ∧
      ∃ a, e.attributionOf #[1, 2] = .ok a ∧
        a.contributions = (List.range twoNumbers.size).map fun i =>
          ([repeatedTest].map fun t =>
              shapleyValue twoNumbers.size (t.coalitionValue #[1, 2]) i).sum /
            ([repeatedTest].length : ℚ) := by
  obtain ⟨e, he⟩ := exists_explainer_repeatedTest
  exact ⟨e, he, rfl, contributions_eq_mean_shapleyValue he #[1, 2] rfl⟩

/-- The attribution of a vector has the score of the forest, which the scorer of the compiled
artifact gives too where child entries can hold all slots; its baseline is the mean expected answer
of the trees, and the contributions make up for the whole difference. -/
theorem attribution_agrees_with_scorers (h : ofForest f v kept = .ok e) (values : Array ℚ)
    (hvalues : values.size = v.size) :
    ∃ a compiled, e.attributionOf values = .ok a ∧ Artifact.compile f v = .ok compiled ∧
      a.score = f.predict values ∧
      ((∀ c ∈ compiled.trees, c.nodeCount ≤ 2 ^ 32) →
        ∃ s, Scorer.ofArtifact compiled = .ok s ∧ s.predict values = .ok a.score) ∧
      a.baseline = (f.trees.map FittedTree.expectedValue).sum / (f.trees.length : ℚ) ∧
      a.total = a.score - a.baseline := by
  obtain ⟨hvocabulary, -, -⟩ := forall₂_of_ofForest h
  obtain ⟨⟨compiled, hcompile⟩, -⟩ := ofForest_eq_ok_iff.1 h
  refine ⟨e.attributeAligned values, compiled, ?_, hcompile, score_attributeAligned h values, ?_,
    baseline_attributeAligned h values, total_attributeAligned h values⟩
  · rw [attributionOf, hvocabulary, if_pos hvalues]
  · intro hsize
    obtain ⟨s, haccepted, -, hpredict⟩ := Scorer.predict_of_compile hcompile hsize
    exact ⟨s, haccepted, by rw [hpredict values hvalues, score_attributeAligned h values]⟩

/-- Score, baseline and total of a vector in the tree that tests a feature twice. -/
theorem attribution_repeatedTest :
    ∃ e, ofForest ⟨[repeatedTest]⟩ twoNumbers 3 = .ok e ∧
      (#[1, 2] : Array ℚ).size = twoNumbers.size ∧
      ∃ a compiled, e.attributionOf #[1, 2] = .ok a ∧
        Artifact.compile ⟨[repeatedTest]⟩ twoNumbers = .ok compiled ∧
        a.score = Forest.predict ⟨[repeatedTest]⟩ #[1, 2] ∧
        (∀ c ∈ compiled.trees, c.nodeCount ≤ 2 ^ 32) ∧
        (∃ s, Scorer.ofArtifact compiled = .ok s ∧ s.predict #[1, 2] = .ok a.score) ∧
        a.baseline = ([repeatedTest].map FittedTree.expectedValue).sum /
          ([repeatedTest].length : ℚ) ∧
        a.total = a.score - a.baseline := by
  obtain ⟨e, he⟩ := exists_explainer_repeatedTest
  obtain ⟨a, compiled, ha, hcompiled, hscore, hscorer, hbaseline, htotal⟩ :=
    attribution_agrees_with_scorers he #[1, 2] rfl
  have hnodes : ∀ c ∈ compiled.trees, c.nodeCount ≤ 2 ^ 32 := by
    have hsmall : ((Artifact.compile ⟨[repeatedTest]⟩ twoNumbers).toOption.all fun compiled =>
        compiled.trees.all fun c => decide (c.nodeCount ≤ 2 ^ 32)) = true := by
      decide +kernel
    rw [hcompiled] at hsmall
    simpa [Except.toOption] using hsmall
  exact ⟨e, he, rfl, a, compiled, ha, hcompiled, hscore, hnodes, hscorer hnodes, hbaseline, htotal⟩

end Attributed

/-! ## A tree with too many nodes -/

/-- The complete tree of a depth.  All of its splits have the same test. -/
def complete : ℕ → DecisionTree ℚ
  | 0 => .leaf ⟨1, 0⟩
  | depth + 1 => .split 0 (1 / 2) ⟨2 ^ (depth + 1), 0⟩ (complete depth) (complete depth)

/-- A complete tree has one node less than a power of two. -/
theorem size_complete (depth : ℕ) : (complete depth).size + 1 = 2 ^ (depth + 1) := by
  induction depth with
  | zero => rfl
  | succ depth ih =>
    rw [complete, DecisionTree.size, Nat.pow_succ]
    omega

/-- Complete trees test a listed feature, and their leaves have counts. -/
theorem wellFormed_complete (depth : ℕ) : (complete depth).WellFormed twoNumbers.size := by
  induction depth with
  | zero =>
    rw [complete, DecisionTree.WellFormed]
    decide +kernel
  | succ depth ih =>
    rw [complete]
    exact ⟨by decide, rfl, ih, ih⟩

/-- A split with a complete tree on its left and a leaf on its right. -/
def lopsided (depth : ℕ) : DecisionTree ℚ :=
  .split 0 (1 / 2) ⟨2 ^ depth, 1⟩ (complete depth) (.leaf ⟨0, 1⟩)

/-- Lopsided trees of every depth compile. -/
theorem compile_lopsided (depth : ℕ) :
    Artifact.compile ⟨[.ofTree (lopsided depth)]⟩ twoNumbers =
      .ok ⟨Artifact.currentVersion, twoNumbers,
        [.ofTree (fun i => (twoNumbers.name? i).getD "") (lopsided depth)]⟩ := by
  have hformed : (lopsided depth).WellFormed twoNumbers.size :=
    ⟨by decide, rfl, wellFormed_complete depth, by rw [DecisionTree.WellFormed]; decide +kernel⟩
  have hcompiled := FittedTree.compile_eq_ok_iff.2
    ⟨lopsided depth, FittedTree.unfold_ofTree hformed, rfl⟩
  exact Artifact.compile_eq_ok_iff.2 ⟨List.cons_ne_nil _ _, by decide +kernel, by decide +kernel,
    rfl, rfl, .cons hcompiled .nil⟩

/-- From depth 31 on the slot of the leaf on the right wraps around to the root, and the vectors
that go there walk in a circle. -/
theorem endless_lopsided {depth : ℕ} (h : 31 ≤ depth) :
    Endless (CompiledTree.move? (.ofTree (fun i => (twoNumbers.name? i).getD "") (lopsided depth))
      (twoNumbers.valueOf #[1, 0])) 0 := by
  have hslot : 2 ^ 32 ∣ 1 + (complete depth).size := by
    rw [add_comm, size_complete]
    exact pow_dvd_pow 2 (Nat.succ_le_succ h)
  exact CompiledTree.endless_ofTree hslot (by decide +kernel)

/-- The lopsided tree of depth 31 has an explainer and compiles, and a scorer accepts what it
compiles to.  But a vector that goes right at the root has an attribution and no prediction. -/
theorem not_predicts_lopsided :
    ∃ e a compiled s, ofForest ⟨[.ofTree (lopsided 31)]⟩ twoNumbers 3 = .ok e ∧
      (#[1, 0] : Array ℚ).size = twoNumbers.size ∧ e.attributionOf #[1, 0] = .ok a ∧
      Artifact.compile ⟨[.ofTree (lopsided 31)]⟩ twoNumbers = .ok compiled ∧
      Scorer.ofArtifact compiled = .ok s ∧ s.predict #[1, 0] = .error (.endlessWalk 0) := by
  -- The tree is never written out.
  generalize hdepth : 31 = depth
  have hcompiled := compile_lopsided depth
  have hexplainer : ofForest ⟨[.ofTree (lopsided depth)]⟩ twoNumbers 3 = .ok _ :=
    ofForest_eq_ok_iff.2 ⟨⟨_, hcompiled⟩, rfl⟩
  rcases Scorer.exists_ofArtifact_of_compile hcompiled with ⟨s, hs⟩
  have hendless := endless_lopsided hdepth.le
  exact ⟨_, _, _, s, hexplainer, rfl, if_pos rfl, hcompiled, hs,
    Scorer.predict_of_endless hs rfl rfl hendless⟩

end Explainer

end LeadScoring
