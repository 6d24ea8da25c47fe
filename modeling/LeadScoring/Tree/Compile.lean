import LeadScoring.Tree.Compiled
import LeadScoring.Tree.Fitted
import LeadScoring.Vocabulary.Basic

/-!
# Compiling fitted trees

Node arrays are first unfolded into a decision tree, which finds every defect of the arrays, and
the decision tree is then laid out as a table over the names of a vocabulary.  Unfolding visits the
nodes in pre-order and reports the first defect it meets; a node met for a second time is one.

Main definitions:

- `TreeDefect`: what can be wrong with node arrays.
- `FittedTree.unfold`: the decision tree that node arrays describe.
- `FittedTree.compile`: the compiled tree.
-/

namespace LeadScoring

/-- The arrays whose lengths are checked against the features. -/
inductive NodeArray where
  | threshold
  | childrenLeft
  | childrenRight
  | value
deriving DecidableEq, Repr

namespace NodeArray

/-- The array's name in documents and messages. -/
def name : NodeArray → String
  | threshold => "threshold"
  | childrenLeft => "children_left"
  | childrenRight => "children_right"
  | value => "value"

end NodeArray

/-- What is wrong with node arrays. -/
inductive TreeDefect where
  | empty
  | shapeMismatch (array : NodeArray) (expected actual : Nat)
  | danglingChild (node : Nat) (child : Int)
  | cycle (node : Nat)
  | unknownFeature (node : Nat) (feature : Int)
  | nonFiniteThreshold (node : Nat)
  | invalidCounts (node : Nat)
deriving DecidableEq, Repr

namespace TreeDefect

/-- The defect in words. -/
def message : TreeDefect → String
  | empty => "tree has no nodes"
  | shapeMismatch array expected actual =>
    "array `" ++ array.name ++ "` has " ++ toString actual ++ " entries, expected " ++
      toString expected
  | danglingChild node child =>
    "node " ++ toString node ++ " points to missing child " ++ toString child
  | cycle node => "node " ++ toString node ++ " is reachable more than once"
  | unknownFeature node feature =>
    "node " ++ toString node ++ " splits on feature index " ++ toString feature ++
      " outside the vocabulary"
  | nonFiniteThreshold node => "node " ++ toString node ++ " has non-finite threshold"
  | invalidCounts node => "leaf " ++ toString node ++ " has invalid class counts"

end TreeDefect

namespace FittedTree

variable {α : Type}

/-- The first array that is not as long as the features, or no nodes at all. -/
def shapeDefect? (t : FittedTree α) : Option TreeDefect :=
  let n := t.nodeCount
  if n = 0 then some .empty
  else if t.threshold.size ≠ n then some (.shapeMismatch .threshold n t.threshold.size)
  else if t.childrenLeft.size ≠ n then some (.shapeMismatch .childrenLeft n t.childrenLeft.size)
  else if t.childrenRight.size ≠ n then some (.shapeMismatch .childrenRight n t.childrenRight.size)
  else if t.counts.size ≠ n then some (.shapeMismatch .value n t.counts.size)
  else none

/-- A child as a node number. -/
def child (t : FittedTree α) (node : Nat) (i : Int) : Except TreeDefect Nat :=
  if 0 ≤ i ∧ i < (t.nodeCount : Int) then .ok i.toNat else .error (.danglingChild node i)

variable [Scalar α]

/-- The tree below a node, where `seen` holds the nodes met before, and all nodes met afterwards.
Every level meets a new node, so the number of nodes bounds the depth. -/
def unfoldFrom (t : FittedTree α) (width : Nat) :
    Nat → List Nat → Nat → Except TreeDefect (DecisionTree α × List Nat)
  | 0, _, node => .error (.cycle node)
  | bound + 1, seen, node =>
    if seen.contains node then .error (.cycle node)
    else
      match t.node? node with
      | none => .error .empty
      | some (.leaf counts) =>
        if counts.isValid then .ok (.leaf counts, node :: seen) else .error (.invalidCounts node)
      | some (.split feature threshold left right counts) => do
        if feature < 0 ∨ (width : Int) ≤ feature then
          throw (.unknownFeature node feature)
        if !Scalar.isFinite threshold then
          throw (.nonFiniteThreshold node)
        let left ← t.child node left
        let right ← t.child node right
        let (left, seen) ← t.unfoldFrom width bound (node :: seen) left
        let (right, seen) ← t.unfoldFrom width bound seen right
        return (.split feature.toNat threshold counts left right, seen)

/-- The decision tree that node arrays describe, over a given number of features. -/
def unfold (t : FittedTree α) (width : Nat) : Except TreeDefect (DecisionTree α) :=
  match t.shapeDefect? with
  | some defect => .error defect
  | none => (t.unfoldFrom width (t.nodeCount + 1) [] 0).map (·.1)

/-- The compiled tree of node arrays over a vocabulary. -/
def compile (t : FittedTree α) (v : Vocabulary) : Except TreeDefect (CompiledTree α) :=
  (t.unfold v.size).map (CompiledTree.ofTree fun i => (v.name? i).getD "")

end FittedTree

end LeadScoring
