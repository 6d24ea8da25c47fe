import LeadScoring.Tree.Basic

/-!
# Compiled trees

A compiled tree is a table of nodes that names its features, so that it can be read without the
data it was fitted on.  Node 0 is the root and the nodes stand in pre-order.

Main definitions:

- `CompiledNode`, `CompiledTree`: the tables.
- `CompiledTree.ofTree`: the table of a decision tree over the names of its features.
-/

namespace LeadScoring

/-- A node of a compiled tree.  Children are positions in the table. -/
inductive CompiledNode (α : Type) where
  | split (feature : String) (threshold : α) (left right : UInt32)
  | leaf (probability : α)
deriving DecidableEq, Repr

namespace CompiledNode

/-- Whether a node is a leaf. -/
def isLeaf {α : Type} : CompiledNode α → Bool
  | leaf _ => true
  | split _ _ _ _ => false

end CompiledNode

/-- A table of nodes. -/
structure CompiledTree (α : Type) where
  nodes : Array (CompiledNode α)
deriving DecidableEq, Repr

namespace CompiledTree

variable {α : Type}

/-- The number of nodes. -/
def nodeCount (t : CompiledTree α) : Nat :=
  t.nodes.size

/-- The number of leaves. -/
def leafCount (t : CompiledTree α) : Nat :=
  t.nodes.countP CompiledNode.isLeaf

/-- The number of tests on the longest walk from a node, as far as the budget goes. -/
def depthFrom (t : CompiledTree α) : Nat → Nat → Nat
  | 0, _ => 0
  | budget + 1, i =>
    match t.nodes[i]? with
    | some (.split _ _ left right) =>
      1 + max (t.depthFrom budget left.toNat) (t.depthFrom budget right.toNat)
    | _ => 0

/-- The number of tests on the longest walk from the root. -/
def depth (t : CompiledTree α) : Nat :=
  t.depthFrom t.nodeCount 0

/-- The nodes of a tree in pre-order, its root standing at the given position. -/
def nodesOf [Scalar α] (nameOf : Nat → String) (slot : Nat) :
    DecisionTree α → List (CompiledNode α)
  | .leaf counts => [.leaf counts.rate]
  | .split feature threshold _ left right =>
    .split (nameOf feature) threshold (UInt32.ofNat (slot + 1))
        (UInt32.ofNat (slot + 1 + left.size)) ::
      (nodesOf nameOf (slot + 1) left ++ nodesOf nameOf (slot + 1 + left.size) right)

/-- The table of a decision tree. -/
def ofTree [Scalar α] (nameOf : Nat → String) (tree : DecisionTree α) : CompiledTree α :=
  ⟨(nodesOf nameOf 0 tree).toArray⟩

end CompiledTree

end LeadScoring
