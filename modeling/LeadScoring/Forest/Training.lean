import LeadScoring.Forest.Growth
import LeadScoring.Tree.Fitted

/-!
# Training forests

Every tree of a forest has a seed of its own, derived from the forest's seed and the tree's index.
With bootstrapping it draws as many rows as there are, with replacement, and a row's weight is the
number of times it was drawn.

Main definitions:

- `TrainingError`: why there is no forest.
- `Forest.fitTree?`: one tree.
- `Forest.train`: the forest with the importance of every feature.
-/

namespace LeadScoring

/-- Why training gives no forest. -/
inductive TrainingError (α : Type) where
  | noTrees
  | emptyLeaves
  | smallSplits
  | noRows
  | unequalCounts (rows targets : Nat)
  | unknownLabel
  | unequalWidths
  /-- A path has more splits than there are rows to separate and `TrainingTable.stallAllowance`
  allows.  Growth without that bound would not end, or only after more splits. -/
  | unboundedGrowth
  | testFraction (fraction : α)
deriving DecidableEq, Repr

namespace TrainingError

/-- The reason in words. -/
def message : TrainingError Float → String
  | noTrees => "forest needs at least one tree"
  | emptyLeaves => "min_samples_leaf must be positive"
  | smallSplits => "min_samples_split must be at least 2"
  | noRows => "no training rows"
  | unequalCounts rows targets =>
    toString rows ++ " feature rows but " ++ toString targets ++ " targets"
  | unknownLabel => "targets must be 0 or 1"
  | unequalWidths => "feature rows must share a non-zero width"
  | unboundedGrowth => "a tree grew without bound"
  | testFraction fraction =>
    "test fraction must lie in [0, 1), got " ++ Layout.plain.write fraction

end TrainingError

/-- A fitted forest with the importance of every feature. -/
structure TrainedForest (α : Type) where
  forest : Forest α
  importances : List α

namespace Forest

variable {α : Type} [Scalar α]

/-! ## One tree -/

/-- `k` draws with replacement from the numbers below `n`. -/
def bootstrapDraws (n : Nat) : Nat → Generator → List Nat × Generator
  | 0, g => ([], g)
  | k + 1, g =>
    let (i, g) := g.below n
    let (draws, g) := bootstrapDraws n k g
    (i :: draws, g)

/-- How often each number below `n` was drawn. -/
def drawCounts (n : Nat) (draws : List Nat) : Array α :=
  draws.foldl (fun counts i => counts.modify i (· + 1)) (Array.replicate n 0)

/-- The weights of `n` rows and the generator after drawing them. -/
def rowWeights (config : ForestConfig) (n : Nat) (g : Generator) : Array α × Generator :=
  if config.bootstrap then
    let (draws, g) := bootstrapDraws n n g
    (drawCounts n draws, g)
  else (Array.replicate n 1, g)

/-- The tree with the given index. -/
def fitTree? (config : ForestConfig) (features : Array (Array α)) (labels : Array Label)
    (index : Nat) : Option (Grown α) :=
  let g := Generator.ofSeed (treeSeed config.seed (UInt64.ofNat index))
  let (weights, g) := rowWeights config features.size g
  (TrainingTable.grow? ⟨features, labels, weights⟩ config.tree g).map (·.1)

/-! ## Importances -/

/-- The values of two rows added position by position. -/
def addAligned (xs ys : List α) : List α :=
  List.zipWith (· + ·) xs ys

/-- The importances with a tree's share of each feature added; a tree without any decrease adds
nothing. -/
def addShares (importances : List α) (decreases : List α) : List α :=
  let total := Scalar.sum decreases
  if 0 < total then addAligned importances (decreases.map (· / total)) else importances

/-- The shares of all trees, scaled to sum to one if there are any. -/
def importancesOf (width : Nat) (grown : List (Grown α)) : List α :=
  let sums :=
    grown.foldl (fun sums tree => addShares sums (tree.decreases width).toList)
      (List.replicate width 0)
  let total := Scalar.sum sums
  if 0 < total then sums.map (· / total) else sums

/-! ## The forest -/

/-- The first fault of the parameters. -/
def configFault? (config : ForestConfig) : Option (TrainingError α) :=
  if config.treeCount = 0 then some .noTrees
  else if config.tree.minSamplesLeaf = 0 then some .emptyLeaves
  else if config.tree.minSamplesSplit < 2 then some .smallSplits
  else none

/-- The common width of the rows, unless they differ or are empty. -/
def commonWidth? (features : List (Array α)) : Option Nat :=
  match features with
  | [] => none
  | row :: rows =>
    if row.size = 0 || rows.any fun other => other.size != row.size then none else some row.size

/-- The forest fitted on rows and their targets. -/
def train (config : ForestConfig) (features : List (Array α)) (targets : List Nat) :
    Except (TrainingError α) (TrainedForest α) := do
  if let some fault := configFault? config then throw fault
  if features.isEmpty then throw .noRows
  if features.length ≠ targets.length then
    throw (.unequalCounts features.length targets.length)
  let some labels := targets.mapM Label.ofNat? | throw .unknownLabel
  let some width := commonWidth? features | throw .unequalWidths
  let rows := features.toArray
  let some grown := (List.range config.treeCount).mapM (fitTree? config rows labels.toArray)
    | throw .unboundedGrowth
  return ⟨⟨grown.map fun g => FittedTree.ofTree g.tree⟩, importancesOf width grown⟩

end Forest

end LeadScoring
