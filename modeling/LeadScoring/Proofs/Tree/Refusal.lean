import LeadScoring.Proofs.Tree.Layout
import LeadScoring.Proofs.Tree.Reachable

/-!
# Trees that are refused for a threshold

The arrays of a decision tree have the right shape, so compiling them looks at features, thresholds
and counts only.  If the features are listed and the counts of the leaves are counts, what remains
to be found are thresholds that are not finite.

Main results:

- Theorem `FittedTree.exists_unfoldFrom_error`: unfolding a sound tree finds such a threshold.
- Theorem `FittedTree.compile_ofTree_cases`: the arrays of a sound tree compile, or are refused for a
  threshold.
-/

namespace LeadScoring.FittedTree

variable {α : Type} [Scalar α] {t : FittedTree α} {width : Nat}

/-- A node splits at a threshold that is not finite. -/
def SplitsAtNonFinite (t : FittedTree α) (node : Nat) : Prop :=
  ∃ feature threshold left right counts,
    t.node? node = some (.split feature threshold left right counts) ∧
      Scalar.isFinite threshold = false

/-- Of a split on a listed feature with both children in the arrays, the threshold is checked. -/
theorem inspect_of_children {node : Nat} {feature left right : Int} {threshold : α}
    {counts : ClassCounts α} {leftTree rightTree : DecisionTree α} {leftNodes rightNodes : List Nat}
    (entry : t.node? node = some (.split feature threshold left right counts))
    (hfeature : 0 ≤ feature ∧ feature < width) (hleft : 0 ≤ left) (hright : 0 ≤ right)
    (leftPart : t.Describes left.toNat leftTree leftNodes)
    (rightPart : t.Describes right.toNat rightTree rightNodes) :
    t.inspect width node =
      if Scalar.isFinite threshold then
        .ok (.split feature.toNat threshold left.toNat right.toNat counts)
      else .error (.nonFiniteThreshold node) := by
  have hlisted : ¬ (feature < 0 ∨ (width : Int) ≤ feature) := by omega
  unfold inspect
  rw [entry]
  simp only [if_neg hlisted, child_eq_ok hleft leftPart, child_eq_ok hright rightPart]
  cases Scalar.isFinite threshold <;> rfl

/-- Unfolding a sound tree whose thresholds are not all finite stops at one that is not. -/
theorem exists_unfoldFrom_error {node : Nat} {tree : DecisionTree α} {nodes : List Nat}
    (h : t.Describes node tree nodes) :
    ∀ {bound : Nat} {seen : List Nat}, tree.depth < bound → tree.Sound width →
      ¬ tree.FiniteThresholds → nodes.Nodup → (∀ i ∈ nodes, i ∉ seen) →
        ∃ i, t.unfoldFrom width bound seen node = .error (.nonFiniteThreshold i) ∧
          t.SplitsAtNonFinite i := by
  induction h with
  | leaf entry =>
    intro bound seen _ _ hinfinite
    exact absurd trivial hinfinite
  | @split node feature l r threshold counts left right leftNodes rightNodes entry feature_nonneg
      left_nonneg right_nonneg leftPart rightPart ihl ihr =>
    intro bound seen hdepth hsound hinfinite hnodup hnew
    obtain ⟨bound, rfl⟩ : ∃ k, bound = k + 1 := ⟨bound - 1, by omega⟩
    obtain ⟨hlisted, leftSound, rightSound⟩ := hsound
    obtain ⟨⟨leftNodup, leftNew⟩, rightNodup, rightNew⟩ := parts_of_nodup hnodup hnew
    simp only [DecisionTree.depth] at hdepth
    have hleftDepth : left.depth < bound := by omega
    have hrightDepth : right.depth < bound := by omega
    have hseen : ¬ seen.contains node = true := by simpa using hnew node (by simp)
    rw [unfoldFrom_succ, if_neg hseen, inspect_of_children entry ⟨feature_nonneg, by omega⟩
      left_nonneg right_nonneg leftPart rightPart]
    cases hthreshold : Scalar.isFinite threshold with
    | false => exact ⟨node, rfl, _, _, _, _, _, entry, hthreshold⟩
    | true =>
      simp only [if_true]
      by_cases hleft : left.FiniteThresholds
      · have hright : ¬ right.FiniteThresholds := fun hright => hinfinite ⟨hthreshold, hleft, hright⟩
        obtain ⟨i, herror, hi⟩ := ihr hrightDepth rightSound hright rightNodup rightNew
        rw [unfoldFrom_of_describes leftPart hleftDepth
          (DecisionTree.wellFormed_iff.2 ⟨leftSound, hleft⟩) leftNodup leftNew]
        change ∃ i, (t.unfoldFrom width bound _ r.toNat >>= _) = _ ∧ _
        rw [herror]
        exact ⟨i, rfl, hi⟩
      · obtain ⟨i, herror, hi⟩ := ihl hleftDepth leftSound hleft leftNodup leftNew
        rw [herror]
        exact ⟨i, rfl, hi⟩

/-- The arrays of a sound tree compile if its thresholds are finite, and are refused for one that is
not otherwise. -/
theorem compile_ofTree_cases {tree : DecisionTree α} {v : Vocabulary} (h : tree.Sound v.size) :
    (tree.FiniteThresholds ∧ ∃ c, (ofTree tree).compile v = .ok c) ∨
      (¬ tree.FiniteThresholds ∧
        ∃ i, (ofTree tree).compile v = .error (.nonFiniteThreshold i) ∧
          (ofTree tree).SplitsAtNonFinite i) := by
  by_cases hfinite : tree.FiniteThresholds
  · left
    have hunfold := unfold_ofTree (DecisionTree.wellFormed_iff.2 ⟨h, hfinite⟩)
    rw [compile, hunfold]
    exact ⟨hfinite, _, rfl⟩
  · right
    have hdepth : tree.depth < (ofTree tree).nodeCount + 1 := by
      rw [nodeCount_ofTree]
      exact Nat.lt_succ_of_lt tree.depth_lt_size
    have hnew : ∀ i ∈ List.range tree.size, i ∉ [] := fun i _ => List.not_mem_nil
    obtain ⟨i, herror, hi⟩ :=
      exists_unfoldFrom_error (describes_ofTree tree) hdepth h hfinite List.nodup_range hnew
    refine ⟨hfinite, i, ?_, hi⟩
    rw [compile, unfold, shapeDefect?_ofTree, herror]
    rfl

end LeadScoring.FittedTree
