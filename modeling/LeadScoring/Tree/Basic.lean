import LeadScoring.Scalar

/-!
# Decision trees

A decision tree asks whether a feature is at most a threshold and goes left if so.  Every node
carries the class counts of the training rows that reached it; a leaf answers with the share of
positive rows.

Main definitions:

- `ClassCounts` and `ClassCounts.rate`: rows per class and the positive share.
- `DecisionTree`: the trees, with `size`, `leafCount`, `depth` and `predict`.
-/

namespace LeadScoring

/-- Rows of each class, as counts or weights. -/
structure ClassCounts (α : Type) where
  negative : α
  positive : α
deriving DecidableEq, Repr

namespace ClassCounts

variable {α : Type} [Scalar α]

instance : Inhabited (ClassCounts α) :=
  ⟨⟨0, 0⟩⟩

/-- No rows at all. -/
def zero : ClassCounts α :=
  ⟨0, 0⟩

/-- The rows of both classes. -/
def total (c : ClassCounts α) : α :=
  c.negative + c.positive

/-- The share of positive rows, zero where there are no rows. -/
def rate (c : ClassCounts α) : α :=
  if 0 < c.total then c.positive / c.total else 0

/-- Whether a count is finite and not negative. -/
def isCount (x : α) : Bool :=
  Scalar.isFinite x && decide (0 ≤ x)

/-- Whether both counts are finite and not negative. -/
def isValid (c : ClassCounts α) : Bool :=
  isCount c.negative && isCount c.positive

end ClassCounts

/-- A binary tree of threshold tests with class counts at all its nodes. -/
inductive DecisionTree (α : Type) where
  | leaf (counts : ClassCounts α)
  | split (feature : Nat) (threshold : α) (counts : ClassCounts α) (left right : DecisionTree α)
deriving DecidableEq, Repr

namespace DecisionTree

variable {α : Type} [Scalar α]

instance : Inhabited (DecisionTree α) :=
  ⟨.leaf .zero⟩

omit [Scalar α] in
/-- The class counts at the root. -/
def counts : DecisionTree α → ClassCounts α
  | leaf c => c
  | split _ _ c _ _ => c

omit [Scalar α] in
/-- The number of nodes. -/
def size : DecisionTree α → Nat
  | leaf _ => 1
  | split _ _ _ left right => 1 + left.size + right.size

omit [Scalar α] in
/-- The number of leaves. -/
def leafCount : DecisionTree α → Nat
  | leaf _ => 1
  | split _ _ _ left right => left.leafCount + right.leafCount

omit [Scalar α] in
/-- The number of tests on the longest path from the root to a leaf. -/
def depth : DecisionTree α → Nat
  | leaf _ => 0
  | split _ _ _ left right => 1 + max left.depth right.depth

/-- The value of a feature; features past the end of the vector count as zero. -/
def valueAt (features : Array α) (feature : Nat) : α :=
  features.getD feature 0

/-- The positive share at the leaf that a vector reaches. -/
def predict (features : Array α) : DecisionTree α → α
  | leaf c => c.rate
  | split feature threshold _ left right =>
    if valueAt features feature ≤ threshold then predict features left else predict features right

end DecisionTree

end LeadScoring
