import LeadScoring.Tree.Basic
import Mathlib.Data.List.Infix

/-!
# Pre-order positions

Tables hold the nodes of a tree in pre-order: the root, then the left part, then the right part.
This module speaks of parts of a table by the position at which they stand, and of the positions
that a vector visits on its way to a leaf.

Main results:

- Definition `StandsAt`: a list stands in another one from a position on, with
  `StandsAt.head`, `StandsAt.left` and `StandsAt.right` for the three parts of a tree.
- Definition `DecisionTree.visits`: the positions that a vector visits, with
  `DecisionTree.mem_visits_left` and `DecisionTree.mem_visits_right` for the parts of a tree.
-/

namespace LeadScoring

variable {β : Type}

/-! ## Parts of a table -/

/-- The entries of a part stand in a table from a position on. -/
def StandsAt (part table : List β) (slot : Nat) : Prop :=
  part <+: table.drop slot

namespace StandsAt

variable {part table first second others : List β} {slot : Nat} {root : β}

/-- A whole table stands at position zero. -/
theorem whole (table : List β) : StandsAt table table 0 := by
  simp [StandsAt]

/-- The entry at an offset into a part. -/
theorem getElem?_add (h : StandsAt part table slot) {k : Nat} (hk : k < part.length) :
    table[slot + k]? = part[k]? := by
  obtain ⟨rest, hrest⟩ := h
  rw [← List.getElem?_drop, ← hrest, List.getElem?_append_left hk]

/-- A part that begins with some entries is continued by the others. -/
theorem append_right (h : StandsAt (first ++ second) table slot) :
    StandsAt second table (slot + first.length) := by
  obtain ⟨rest, hrest⟩ := h
  refine ⟨rest, ?_⟩
  rw [← List.drop_drop, ← hrest, List.append_assoc, List.drop_left]

/-- The front of a part stands where the part does. -/
theorem append_left (h : StandsAt (first ++ second) table slot) : StandsAt first table slot :=
  (List.prefix_append first second).trans h

/-- The root of a part stands at its position. -/
theorem head (h : StandsAt (root :: others) table slot) : table[slot]? = some root := by
  simpa using h.getElem?_add (k := 0) (by simp)

/-- The left part stands right behind the root. -/
theorem left (h : StandsAt (root :: (first ++ second)) table slot) :
    StandsAt first table (slot + 1) := by
  have htail : StandsAt ([root] ++ (first ++ second)) table slot := h
  exact htail.append_right.append_left

/-- The right part stands behind the left one. -/
theorem right (h : StandsAt (root :: (first ++ second)) table slot) :
    StandsAt second table (slot + 1 + first.length) := by
  have htail : StandsAt ([root] ++ (first ++ second)) table slot := h
  exact htail.append_right.append_right

end StandsAt

/-! ## Visited positions -/

namespace DecisionTree

variable {α : Type}

theorem size_pos (tree : DecisionTree α) : 0 < tree.size := by
  cases tree <;> simp only [size] <;> omega

/-- Every split on a path stands for one node more. -/
theorem depth_lt_size (tree : DecisionTree α) : tree.depth < tree.size := by
  induction tree with
  | leaf counts => simp [depth, size]
  | split feature threshold counts left right ihl ihr =>
    simp only [depth, size]
    omega

variable [Scalar α]

/-- The positions of the nodes that a vector visits, the root standing at the given one. -/
def visits (features : Array α) (slot : Nat) : DecisionTree α → List Nat
  | leaf _ => [slot]
  | split feature threshold _ left right =>
    slot ::
      if valueAt features feature ≤ threshold then left.visits features (slot + 1)
      else right.visits features (slot + 1 + left.size)

/-- A path begins at the root. -/
theorem slot_mem_visits (features : Array α) (slot : Nat) (tree : DecisionTree α) :
    slot ∈ tree.visits features slot := by
  cases tree <;> simp [visits]

/-- A path stays among the positions of the tree. -/
theorem bounds_of_mem_visits {features : Array α} {tree : DecisionTree α} {slot i : Nat}
    (h : i ∈ tree.visits features slot) : slot ≤ i ∧ i < slot + tree.size := by
  induction tree generalizing slot with
  | leaf counts =>
    rw [visits, List.mem_singleton] at h
    simp only [size]
    omega
  | split feature threshold counts left right ihl ihr =>
    rw [visits, List.mem_cons] at h
    simp only [size]
    rcases h with rfl | h
    · omega
    · split_ifs at h
      · have hbounds := ihl h
        omega
      · have hbounds := ihr h
        omega

/-- A position of the left part is visited by the vectors that go left and visit it there. -/
theorem mem_visits_left {features : Array α} {feature : Nat} {threshold : α}
    {counts : ClassCounts α} {left right : DecisionTree α} {slot i : Nat} (hlow : slot < i)
    (hi : i < slot + 1 + left.size) :
    i ∈ (split feature threshold counts left right).visits features slot ↔
      valueAt features feature ≤ threshold ∧ i ∈ left.visits features (slot + 1) := by
  rw [visits, List.mem_cons]
  constructor
  · rintro (rfl | h)
    · omega
    · split_ifs at h with hle
      · exact ⟨hle, h⟩
      · have hbounds := bounds_of_mem_visits h
        omega
  · rintro ⟨hle, h⟩
    rw [if_pos hle]
    exact Or.inr h

/-- The nodes of the right child are visited exactly when the test fails. -/
theorem mem_visits_right {features : Array α} {feature : Nat} {threshold : α}
    {counts : ClassCounts α} {left right : DecisionTree α} {slot i : Nat}
    (hlow : slot + 1 + left.size ≤ i) :
    i ∈ (split feature threshold counts left right).visits features slot ↔
      ¬ valueAt features feature ≤ threshold ∧
        i ∈ right.visits features (slot + 1 + left.size) := by
  rw [visits, List.mem_cons]
  constructor
  · rintro (rfl | h)
    · omega
    · split_ifs at h with hle
      · have hbounds := bounds_of_mem_visits h
        omega
      · exact ⟨hle, h⟩
  · rintro ⟨hle, h⟩
    rw [if_neg hle]
    exact Or.inr h

end DecisionTree

end LeadScoring
