import LeadScoring.Forest.Config
import LeadScoring.Forest.Label
import LeadScoring.Random
import LeadScoring.Tree.Basic

/-!
# Growing classification trees

A tree is grown from the root by splitting the rows that reach a node at the threshold that
lowers the weighted Gini impurity most.  Each split looks at a random choice of features; a
threshold lies midway between two neighbouring distinct values.  Rows carry weights, and rows of
weight zero take no part.

Main definitions:

- `TrainingTable`: rows, labels and weights.
- `TrainingTable.bestCut?`: the best cut of some rows, by one sweep over the sorted rows of each
  feature.
- `TrainingTable.grow?`: the tree grown from some rows, with the impurity decrease that each split
  is credited with.
-/

namespace LeadScoring

variable {α : Type} [Scalar α]

/-! ## Impurity -/

namespace ClassCounts

/-- The counts with one more row of the given weight. -/
def add (c : ClassCounts α) (label : Label) (weight : α) : ClassCounts α :=
  match label with
  | .negative => { c with negative := c.negative + weight }
  | .positive => { c with positive := c.positive + weight }

/-- The counts of what remains when a part is taken away. -/
def without (c part : ClassCounts α) : ClassCounts α :=
  ⟨c.negative - part.negative, c.positive - part.positive⟩

/-- The probability that two rows drawn with replacement differ in class; zero for no rows. -/
def gini (c : ClassCounts α) : α :=
  if c.total ≤ 0 then 0
  else
    let p := c.positive / c.total
    let q := c.negative / c.total
    1 - p * p - q * q

/-- The Gini impurity times the weight of the rows. -/
def weightedGini (c : ClassCounts α) : α :=
  c.total * c.gini

end ClassCounts

/-! ## Rows -/

/-- The rows that a tree is fitted on. -/
structure TrainingTable (α : Type) where
  features : Array (Array α)
  labels : Array Label
  /-- How often each row counts. -/
  weights : Array α

namespace TrainingTable

omit [Scalar α] in
/-- The number of features of a row. -/
def width (t : TrainingTable α) : Nat :=
  match t.features[0]? with
  | some row => row.size
  | none => 0

/-- The value of a feature in a row. -/
def value (t : TrainingTable α) (feature row : Nat) : α :=
  (t.features.getD row #[]).getD feature 0

omit [Scalar α] in
/-- The label of a row. -/
def label (t : TrainingTable α) (row : Nat) : Label :=
  t.labels.getD row .negative

/-- The weight of a row. -/
def weight (t : TrainingTable α) (row : Nat) : α :=
  t.weights.getD row 0

/-- The rows of positive weight. -/
def weightedRows (t : TrainingTable α) : List Nat :=
  (List.range t.labels.size).filter fun row => decide (0 < t.weight row)

/-- The class counts with one more row. -/
def addRow (t : TrainingTable α) (c : ClassCounts α) (row : Nat) : ClassCounts α :=
  c.add (t.label row) (t.weight row)

/-- The class counts of some rows. -/
def countsOf (t : TrainingTable α) (rows : List Nat) : ClassCounts α :=
  rows.foldl t.addRow .zero

/-! ## Cuts -/

/-- The rows in the order of a feature, rows of one value in the order given. -/
def sortedBy (t : TrainingTable α) (feature : Nat) (rows : List Nat) : List Nat :=
  rows.mergeSort fun a b => Scalar.totalLe (t.value feature a) (t.value feature b)

end TrainingTable

/-- A test on a feature and the weighted impurity decrease that it brings. -/
structure Cut (α : Type) where
  feature : Nat
  threshold : α
  gain : α
deriving DecidableEq, Repr

namespace Cut

/-- The threshold between two neighbouring values: midway, or the lower one if rounding would
reach the upper. -/
def thresholdBetween (value next : α) : α :=
  let middle := value + (next - value) / 2.0
  if next ≤ middle then value else middle

/-- The better of two cuts, the earlier one when their gains are equal. -/
def better (best : Option (Cut α)) (cut : Cut α) : Option (Cut α) :=
  match best with
  | some b => if b.gain < cut.gain then some cut else some b
  | none => some cut

end Cut

namespace TrainingTable

/-- The cut between two neighbouring rows of a feature, if it separates them, leaves enough rows
on both sides and gains something. -/
def cutBetween? (config : TreeConfig) (counts : ClassCounts α) (size feature : Nat)
    (left : ClassCounts α) (leftSize : Nat) (value next : α) : Option (Cut α) :=
  if next ≤ value then none
  else if leftSize < config.minSamplesLeaf || size - leftSize < config.minSamplesLeaf then none
  else
    let gain := counts.weightedGini - (left.weightedGini + (counts.without left).weightedGini)
    if gain ≤ Scalar.resolution then none
    else some ⟨feature, Cut.thresholdBetween value next, gain⟩

/-- Moves the rows of a feature to the left one by one and keeps the best cut. -/
def sweep (t : TrainingTable α) (config : TreeConfig) (counts : ClassCounts α)
    (size feature : Nat) (left : ClassCounts α) (leftSize : Nat) (best : Option (Cut α)) :
    List Nat → Option (Cut α)
  | row :: next :: rows =>
    let left := t.addRow left row
    let best :=
      match cutBetween? config counts size feature left (leftSize + 1) (t.value feature row)
          (t.value feature next) with
      | some cut => Cut.better best cut
      | none => best
    t.sweep config counts size feature left (leftSize + 1) best (next :: rows)
  | _ => best

/-- The best cut of some rows on given features, the earlier one when gains are equal. -/
def bestCutOn? (t : TrainingTable α) (config : TreeConfig) (rows : List Nat)
    (counts : ClassCounts α) (features : List Nat) : Option (Cut α) :=
  features.foldl
    (fun best feature =>
      t.sweep config counts rows.length feature .zero 0 best (t.sortedBy feature rows))
    none

/-- The best cut of some rows on a random choice of features. -/
def bestCut? (t : TrainingTable α) (config : TreeConfig) (rows : List Nat)
    (counts : ClassCounts α) (g : Generator) : Option (Cut α) × Generator :=
  let (features, g) := g.sample t.width (config.maxFeatures.resolve t.width)
  (t.bestCutOn? config rows counts features, g)

end TrainingTable

/-! ## Growth -/

/-- A grown tree with the gain credited to the feature of each split, in pre-order. -/
structure Grown (α : Type) where
  tree : DecisionTree α
  credits : List (Nat × α)

namespace Grown

/-- The sum of the credits of each of `n` features. -/
def decreases (n : Nat) (grown : Grown α) : Array α :=
  grown.credits.foldl (fun sums (feature, gain) => sums.modify feature (· + gain))
    (Array.replicate n 0)

end Grown

/-- The rows that two smallest leaves need.  Counts have 64 bits, so doubling one that fills them
drops its highest bit.  This is what arithmetic without overflow checks does; where overflow is
checked, training stops with a panic there. -/
def TreeConfig.rowsOfTwoLeaves (config : TreeConfig) : Nat :=
  2 * config.minSamplesLeaf % 0x10000000000000000

namespace TrainingTable

/-- Whether a node stays a leaf without a look at its rows' features. -/
def isFinal (config : TreeConfig) (depth size : Nat) (counts : ClassCounts α) : Bool :=
  (match config.maxDepth with
    | some limit => decide (limit ≤ depth)
    | none => false) ||
  decide (size < config.minSamplesSplit) || decide (size < config.rowsOfTwoLeaves) ||
  decide (counts.gini ≤ Scalar.resolution)

/-- Whether a row goes left at a cut. -/
def goesLeft (t : TrainingTable α) (cut : Cut α) (row : Nat) : Bool :=
  decide (t.value cut.feature row ≤ cut.threshold)

/-- The tree grown from the rows at a node of the given depth, with the generator afterwards.
Nothing is returned if the tree would become deeper than the bound. -/
def growFrom? (t : TrainingTable α) (config : TreeConfig) :
    Nat → Nat → List Nat → Generator → Option (Grown α × Generator)
  | bound, depth, rows, g =>
    let counts := t.countsOf rows
    if isFinal config depth rows.length counts then some (⟨.leaf counts, []⟩, g)
    else
      match t.bestCut? config rows counts g with
      | (none, g) => some (⟨.leaf counts, []⟩, g)
      | (some cut, g) =>
        match bound with
        | 0 => none
        | bound + 1 =>
          match t.growFrom? config bound (depth + 1) (rows.filter (t.goesLeft cut)) g with
          | none => none
          | some (left, g) =>
            match t.growFrom? config bound (depth + 1)
                (rows.filter fun row => !t.goesLeft cut row) g with
            | none => none
            | some (right, g) =>
              some
                (⟨.split cut.feature cut.threshold counts left.tree right.tree,
                  (cut.feature, cut.gain) :: (left.credits ++ right.credits)⟩, g)

/-- How many splits that leave one side empty a path may have.  Only values that are not finite
can lead to such a split.  The number is a choice, it makes growth end on every table.  Growth without
a bound goes on as long as the features drawn have no other cut, so on a table with very many
columns of not-a-number it may come to a tree after more such splits than are allowed here. -/
def stallAllowance : Nat := 10000

/-- A bound on the depth of a tree: the limit if there is one, otherwise as many splits as there
are rows to separate and the allowance. -/
def depthBound (config : TreeConfig) (rowCount : Nat) : Nat :=
  match config.maxDepth with
  | some limit => limit
  | none => rowCount + stallAllowance

/-- The tree grown from the rows of positive weight. -/
def grow? (t : TrainingTable α) (config : TreeConfig) (g : Generator) :
    Option (Grown α × Generator) :=
  t.growFrom? config (depthBound config t.labels.size) 0 t.weightedRows g

end TrainingTable

end LeadScoring
