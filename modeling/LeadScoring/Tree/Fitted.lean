import LeadScoring.Tree.Basic

/-!
# Fitted trees as parallel arrays

Learners store a tree as five arrays with one entry per node, node 0 being the root.  A leaf has
the feature -2 and the children -1.  Nothing forces the arrays to describe a tree; the compiler
checks that.

Main definitions:

- `FittedTree`: the arrays.
- `FittedTree.decisionPath`: the nodes that a vector visits.
- `FittedTree.ofTree`: the arrays of a decision tree, its nodes numbered in pre-order.
- `Forest`: several fitted trees, with the mean of their predictions.
-/

namespace LeadScoring

/-- A fitted tree as parallel node arrays. -/
structure FittedTree (α : Type) where
  feature : Array Int
  threshold : Array α
  childrenLeft : Array Int
  childrenRight : Array Int
  counts : Array (ClassCounts α)
deriving DecidableEq, Repr

/-- One node of the arrays. -/
inductive FittedNode (α : Type) where
  | leaf (counts : ClassCounts α)
  | split (feature : Int) (threshold : α) (left right : Int) (counts : ClassCounts α)
deriving DecidableEq, Repr

namespace FittedTree

variable {α : Type}

/-- The feature that marks a leaf. -/
def leafFeature : Int := -2

/-- The child that marks a leaf. -/
def leafChild : Int := -1

/-- The number of nodes. -/
def nodeCount (t : FittedTree α) : Nat :=
  t.feature.size

/-- The entries of all five arrays at a node, if each has one. -/
def node? (t : FittedTree α) (i : Nat) : Option (FittedNode α) :=
  match t.feature[i]?, t.threshold[i]?, t.childrenLeft[i]?, t.childrenRight[i]?, t.counts[i]? with
  | some feature, some threshold, some left, some right, some counts =>
    if feature = leafFeature then some (.leaf counts)
    else some (.split feature threshold left right counts)
  | _, _, _, _, _ => none

variable [Scalar α]

/-- The value of a feature; features outside the vector count as zero. -/
def valueAt (features : Array α) (feature : Int) : α :=
  if feature < 0 then 0 else DecisionTree.valueAt features feature.toNat

/-- The nodes that a vector visits from a node on, at most one more than the bound. -/
def pathFrom (t : FittedTree α) (features : Array α) : Nat → Nat → List Nat
  | 0, node => [node]
  | bound + 1, node =>
    match t.node? node with
    | some (.split feature threshold left right _) =>
      let next := if valueAt features feature ≤ threshold then left else right
      node :: t.pathFrom features bound next.toNat
    | _ => [node]

/-- The nodes that a vector visits from the root to a leaf.  A path of a tree has no node
twice, so the number of nodes bounds its length. -/
def decisionPath (t : FittedTree α) (features : Array α) : List Nat :=
  t.pathFrom features t.nodeCount 0

/-- The leaf that a vector reaches. -/
def leafReached (t : FittedTree α) (features : Array α) : Nat :=
  (t.decisionPath features).getLastD 0

/-- The positive share at a node. -/
def rateAt (t : FittedTree α) (node : Nat) : α :=
  (t.counts.getD node .zero).rate

/-- The positive share at the leaf that a vector reaches. -/
def predict (t : FittedTree α) (features : Array α) : α :=
  t.rateAt (t.leafReached features)

/-! ## Arrays of a decision tree -/

/-- The entries of one node in all five arrays. -/
structure Row (α : Type) where
  feature : Int
  threshold : α
  left : Int
  right : Int
  counts : ClassCounts α

/-- The rows of a tree in pre-order, its root being the node with the given number. -/
def rowsOf (slot : Nat) : DecisionTree α → List (Row α)
  | .leaf counts => [⟨leafFeature, 0 - 2.0, leafChild, leafChild, counts⟩]
  | .split feature threshold counts left right =>
    ⟨feature, threshold, (slot + 1 : Nat), (slot + 1 + left.size : Nat), counts⟩ ::
      (rowsOf (slot + 1) left ++ rowsOf (slot + 1 + left.size) right)

/-- The arrays of a decision tree. -/
def ofTree (tree : DecisionTree α) : FittedTree α :=
  let rows := (rowsOf 0 tree).toArray
  { feature := rows.map (·.feature)
    threshold := rows.map (·.threshold)
    childrenLeft := rows.map (·.left)
    childrenRight := rows.map (·.right)
    counts := rows.map (·.counts) }

end FittedTree

/-- Fitted trees in the order of their training. -/
structure Forest (α : Type) where
  trees : List (FittedTree α)
deriving DecidableEq, Repr

namespace Forest

variable {α : Type} [Scalar α]

/-- The mean of the trees' predictions, zero for no trees. -/
def predict (f : Forest α) (features : Array α) : α :=
  if f.trees.isEmpty then 0 else Scalar.mean (f.trees.map fun t => t.predict features)

/-- The class that a forest predicts: positive above one half. -/
def predictsPositive (f : Forest α) (features : Array α) : Bool :=
  decide (0.5 < f.predict features)

end Forest

end LeadScoring
