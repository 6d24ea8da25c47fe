import LeadScoring.Proofs.Tree.Unfolding

/-!
# Arrays of decision trees

Trainers lay a decision tree out as node arrays, its nodes in pre-order.  This module shows that the
arrays unfold back to the tree, so nothing that a trainer produces is refused for its shape.

Main results:

- Theorem `FittedTree.describes_ofTree`: the arrays describe the tree, node by node.
- Theorem `FittedTree.decisionPath_ofTree`: decision paths are the positions that the tree visits.
- Theorem `FittedTree.unfold_ofTree`: the arrays of a well-formed tree unfold to it.
-/

namespace LeadScoring.FittedTree

variable {α : Type} [Scalar α]

theorem length_rowsOf (slot : Nat) (tree : DecisionTree α) :
    (rowsOf slot tree).length = tree.size := by
  induction tree generalizing slot with
  | leaf counts => rfl
  | split feature threshold counts left right ihl ihr =>
    simp only [rowsOf, List.length_cons, List.length_append, ihl, ihr, DecisionTree.size]
    omega

/-- The arrays of a tree have one node for each of its nodes. -/
theorem nodeCount_ofTree (tree : DecisionTree α) : (ofTree tree).nodeCount = tree.size := by
  simp [nodeCount, ofTree, length_rowsOf]

/-- A node of the arrays is read off the row at its position. -/
theorem node?_ofTree {tree : DecisionTree α} {slot : Nat} {row : Row α}
    (h : (rowsOf 0 tree)[slot]? = some row) :
    (ofTree tree).node? slot =
      if row.feature = leafFeature then some (.leaf row.counts)
      else some (.split row.feature row.threshold row.left row.right row.counts) := by
  simp [node?, ofTree, h]

/-- The arrays of a laid-out tree have one length. -/
theorem shapeDefect?_ofTree (tree : DecisionTree α) : (ofTree tree).shapeDefect? = none := by
  have hpos := tree.size_pos
  have hne : tree.size ≠ 0 := by omega
  simp [shapeDefect?, ofTree, nodeCount, length_rowsOf, hne]

/-- Where the rows of a split stand, the arrays have its entries, and its parts follow. -/
theorem node?_of_standsAt_split {whole left right : DecisionTree α} {feature slot : Nat}
    {threshold : α} {counts : ClassCounts α}
    (h : StandsAt (rowsOf slot (.split feature threshold counts left right)) (rowsOf 0 whole)
      slot) :
    (ofTree whole).node? slot =
      some (.split feature threshold (slot + 1 : Nat) (slot + 1 + left.size : Nat) counts) := by
  have hne : ((feature : Nat) : Int) ≠ leafFeature := by
    rw [leafFeature]
    omega
  rw [node?_ofTree h.head, if_neg hne]

/-- Where the rows of a part stand, the arrays have the counts of its root. -/
theorem counts_of_standsAt {whole part : DecisionTree α} {slot : Nat}
    (h : StandsAt (rowsOf slot part) (rowsOf 0 whole) slot) :
    (ofTree whole).counts[slot]? = some part.counts := by
  cases part with
  | leaf counts => simp [ofTree, h.head, DecisionTree.counts]
  | split feature threshold counts left right => simp [ofTree, h.head, DecisionTree.counts]

/-- Where the rows of a part stand among those of the whole tree, the arrays describe that part by
consecutive nodes. -/
theorem describes_of_standsAt {whole : DecisionTree α} :
    ∀ {part : DecisionTree α} {slot : Nat}, StandsAt (rowsOf slot part) (rowsOf 0 whole) slot →
      (ofTree whole).Describes slot part (List.range' slot part.size) := by
  intro part
  induction part with
  | leaf counts =>
    intro slot hstands
    have hrow : (rowsOf 0 whole)[slot]? = some _ := hstands.head
    exact .leaf (by rw [node?_ofTree hrow, if_pos rfl])
  | split feature threshold counts left right ihl ihr =>
    intro slot hstands
    have hright := hstands.right
    rw [length_rowsOf] at hright
    have hentry := node?_of_standsAt_split hstands
    have hnodes : List.range' slot (DecisionTree.split feature threshold counts left right).size =
        slot :: (List.range' (slot + 1) left.size ++
          List.range' (slot + 1 + left.size) right.size) := by
      rw [List.range'_append_1, DecisionTree.size, Nat.add_assoc, Nat.add_comm 1, List.range'_succ]
    rw [hnodes]
    exact .split hentry (by omega) (by omega) (by omega) (ihl hstands.left) (ihr hright)

/-- The arrays of a tree describe it, its nodes in pre-order. -/
theorem describes_ofTree (tree : DecisionTree α) :
    (ofTree tree).Describes 0 tree (List.range tree.size) := by
  rw [List.range_eq_range']
  exact describes_of_standsAt (StandsAt.whole _)

/-- The nodes on a decision path are the positions that the tree visits. -/
theorem decisionPath_ofTree (tree : DecisionTree α) (features : Array α) :
    (ofTree tree).decisionPath features = tree.visits features 0 := by
  have hmap := map_visits_eq_decisionPath (describes_ofTree tree) List.nodup_range features
  have hvisits : (tree.visits features 0).map (fun s => (List.range tree.size)[s]?) =
      (tree.visits features 0).map some := by
    apply List.map_congr_left
    intro i hi
    have hbounds := DecisionTree.bounds_of_mem_visits hi
    rw [List.getElem?_range (by omega)]
  rw [hvisits] at hmap
  exact (List.map_injective_iff.2 (fun _ _ => Option.some.inj) hmap).symm

/-- The arrays of a well-formed tree unfold to that tree. -/
theorem unfold_ofTree {tree : DecisionTree α} {width : Nat} (h : tree.WellFormed width) :
    (ofTree tree).unfold width = .ok tree :=
  unfold_eq_ok_iff.2
    ⟨shapeDefect?_ofTree tree, h, List.range tree.size, describes_ofTree tree, List.nodup_range⟩

end LeadScoring.FittedTree
