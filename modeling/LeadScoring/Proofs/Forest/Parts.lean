import LeadScoring.Forest.Growth
import LeadScoring.Proofs.Tree.Shape

/-!
# Rows of the nodes of a tree

A split hands its rows down to its two sides by its test, and a decision path follows the same
tests.  So the rows that the tests lead to a node are those whose decision path passes it, and what a
tree hands down with the rows it hands down to each of its nodes.

Main results:

- Definition `TrainingTable.rowsThrough`: the rows whose decision path passes a node.
- Definition `TrainingTable.HandsDown`: a relation of rows and trees that passes from a split to its
  two sides.
- Theorem `TrainingTable.HandsDown.exists_part_ofTree`: such a relation holds of each node and the
  rows through it.
-/

namespace LeadScoring.TrainingTable

variable {α : Type}

/-- The features of a row as a vector, without any for a row outside the table. -/
def vector (t : TrainingTable α) (row : ℕ) : Array α :=
  t.features.getD row #[]

variable [Scalar α]

/-- A tree reads the values of a row where the table has them. -/
theorem valueAt_vector (t : TrainingTable α) (feature row : ℕ) :
    DecisionTree.valueAt (t.vector row) feature = t.value feature row :=
  rfl

/-- The rows of positive weight whose decision path passes a node. -/
def rowsThrough (t : TrainingTable α) (tree : FittedTree α) (node : ℕ) : List ℕ :=
  t.weightedRows.filter fun row => decide (node ∈ tree.decisionPath (t.vector row))

/-- The rows that visit a position of a tree whose root stands at the given slot. -/
def visitors (t : TrainingTable α) (tree : DecisionTree α) (slot i : ℕ) (rows : List ℕ) :
    List ℕ :=
  rows.filter fun row => decide (i ∈ tree.visits (t.vector row) slot)

/-! ## Visitors -/

variable {t : TrainingTable α}

section Visitors

variable {feature slot i : ℕ} {threshold : α} {counts : ClassCounts α}
  {left right : DecisionTree α}

/-- All rows pass the root. -/
theorem visitors_root (tree : DecisionTree α) (slot : ℕ) (rows : List ℕ) :
    t.visitors tree slot slot rows = rows := by
  simp [visitors, DecisionTree.slot_mem_visits]

/-- A position of the left part is visited by those of the rows sent left that visit it there. -/
theorem visitors_left (hlow : slot < i) (hi : i < slot + 1 + left.size) :
    t.visitors (.split feature threshold counts left right) slot i rows =
      t.visitors left (slot + 1) i
        (rows.filter fun row => decide (t.value feature row ≤ threshold)) := by
  unfold visitors
  rw [List.filter_filter]
  apply List.filter_congr
  intro row _
  simp [DecisionTree.mem_visits_left hlow hi, valueAt_vector, Bool.and_comm]

/-- What passes a node on the right of a split has gone right. -/
theorem visitors_right (hlow : slot + 1 + left.size ≤ i) :
    t.visitors (.split feature threshold counts left right) slot i rows =
      t.visitors right (slot + 1 + left.size) i
        (rows.filter fun row => !decide (t.value feature row ≤ threshold)) := by
  unfold visitors
  rw [List.filter_filter]
  apply List.filter_congr
  intro row _
  simp [DecisionTree.mem_visits_right hlow, valueAt_vector, Bool.and_comm]

end Visitors

/-- The rows whose decision path passes a node of the arrays are those that visit it in the tree. -/
theorem rowsThrough_ofTree (t : TrainingTable α) (tree : DecisionTree α) (node : ℕ) :
    t.rowsThrough (FittedTree.ofTree tree) node = t.visitors tree 0 node t.weightedRows := by
  simp only [rowsThrough, visitors, FittedTree.decisionPath_ofTree]

/-- Every decision path passes the root. -/
theorem rowsThrough_root (t : TrainingTable α) (tree : DecisionTree α) :
    t.rowsThrough (FittedTree.ofTree tree) 0 = t.weightedRows := by
  rw [rowsThrough_ofTree, visitors_root]

/-! ## Handing down -/

/-- What holds of a split at some depth with some rows holds of its two sides one level deeper, each
with the rows that the test sends there. -/
def HandsDown (t : TrainingTable α) (R : ℕ → List ℕ → DecisionTree α → Prop) : Prop :=
  ∀ ⦃depth rows feature threshold counts left right⦄,
    R depth rows (.split feature threshold counts left right) →
      R (depth + 1) (rows.filter fun row => decide (t.value feature row ≤ threshold)) left ∧
        R (depth + 1) (rows.filter fun row => !decide (t.value feature row ≤ threshold)) right

variable {R : ℕ → List ℕ → DecisionTree α → Prop} {whole tree : DecisionTree α} {rows : List ℕ}
  {slot edges node : ℕ}

/-- What is handed down reaches every node, with the rows that visit it. -/
theorem HandsDown.exists_part (hdown : t.HandsDown R) {depth : ℕ} (h : R depth rows tree)
    (hstands : StandsAt (FittedTree.rowsOf slot tree) (FittedTree.rowsOf 0 whole) slot)
    (hway : (FittedTree.ofTree whole).children?.Descends slot edges node) :
    ∃ part, StandsAt (FittedTree.rowsOf node part) (FittedTree.rowsOf 0 whole) node ∧
      R (depth + edges) (t.visitors tree slot node rows) part := by
  induction tree generalizing depth rows slot edges with
  | leaf counts =>
    obtain ⟨rfl, rfl⟩ :=
      (Branching.descends_of_none (FittedTree.laysOut_of_standsAt hstands)).1 hway
    rw [visitors_root]
    exact ⟨_, hstands, h⟩
  | split feature threshold counts left right ihl ihr =>
    obtain ⟨hroot, hleft, hright⟩ := FittedTree.laysOut_of_standsAt hstands
    have hstandsRight := hstands.right
    rw [FittedTree.length_rowsOf] at hstandsRight
    obtain ⟨hdownLeft, hdownRight⟩ := hdown h
    rcases (Branching.descends_of_some hroot).1 hway with
      ⟨rfl, rfl⟩ | ⟨less, rfl, hway | hway⟩
    · rw [visitors_root]
      exact ⟨_, hstands, h⟩
    · have hbelow : node ∈ (FittedTree.ofTree whole).children?.below (slot + 1) := ⟨less, hway⟩
      rw [hleft.below_eq, Set.mem_Ico] at hbelow
      rw [visitors_left (by omega) hbelow.2, ← Nat.add_assoc, Nat.add_right_comm]
      exact ihl hdownLeft hstands.left hway
    · have hbelow : node ∈ (FittedTree.ofTree whole).children?.below (slot + 1 + left.size) :=
        ⟨less, hway⟩
      rw [hright.below_eq, Set.mem_Ico] at hbelow
      rw [visitors_right hbelow.1, ← Nat.add_assoc, Nat.add_right_comm]
      exact ihr hdownRight hstandsRight hway

/-- What is handed down from all rows reaches every node of the arrays, with the rows whose decision
path passes it. -/
theorem HandsDown.exists_part_ofTree (hdown : t.HandsDown R) (h : R 0 t.weightedRows tree)
    (hway : (FittedTree.ofTree tree).children?.Descends 0 edges node) :
    ∃ part, StandsAt (FittedTree.rowsOf node part) (FittedTree.rowsOf 0 tree) node ∧
      R edges (t.rowsThrough (FittedTree.ofTree tree) node) part := by
  obtain ⟨part, hstands, hpart⟩ := hdown.exists_part h (StandsAt.whole _) hway
  rw [Nat.zero_add] at hpart
  rw [rowsThrough_ofTree]
  exact ⟨part, hstands, hpart⟩

/-- A way leads down to every node of the arrays. -/
theorem exists_descends_ofTree (hnode : node < (FittedTree.ofTree tree).nodeCount) :
    ∃ edges, (FittedTree.ofTree tree).children?.Descends 0 edges node := by
  have hbelow := (FittedTree.preOrder_ofTree tree).below_root
  rw [Set.ext_iff] at hbelow
  exact (hbelow node).2 hnode

end LeadScoring.TrainingTable
