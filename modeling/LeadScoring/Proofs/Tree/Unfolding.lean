import LeadScoring.Proofs.Outcome
import LeadScoring.Proofs.Tree.Preorder
import LeadScoring.Tree.Compile
import Mathlib.Data.List.Nodup
import Mathlib.Data.List.Perm.Subperm

/-!
# Unfolding node arrays

Node arrays describe a decision tree below a node if every child entry leads on to another node and
every branch ends in a leaf.  This module states that relation on its own, with the list of nodes
that the tree is read from, and proves that unfolding decides it.

Main results:

- Definition `DecisionTree.WellFormed`: what is asked of a tree, which is to be sound and to have
  finite thresholds.
- Definition `FittedTree.Describes`: the tree below a node, with its nodes in pre-order.
- Theorems `FittedTree.describes_of_unfoldFrom`, `FittedTree.unfoldFrom_of_describes`: unfolding
  succeeds exactly on well-formed trees whose nodes are distinct and have not been met before.
- Theorem `FittedTree.unfold_eq_ok_iff`: the same for whole node arrays.
- Theorem `FittedTree.map_visits_eq_decisionPath`: the nodes on a decision path are those at the
  positions that the tree visits.
- Theorem `FittedTree.predict_of_describes`: a prediction from node arrays is the prediction of
  the tree that they describe.
-/

namespace LeadScoring

namespace DecisionTree

variable {α : Type} [Scalar α]

/-- The tree tests listed features against finite thresholds, and the counts of its leaves are
counts. -/
def WellFormed (width : Nat) : DecisionTree α → Prop
  | leaf counts => counts.isValid = true
  | split feature threshold _ left right =>
    feature < width ∧ Scalar.isFinite threshold = true ∧ left.WellFormed width ∧
      right.WellFormed width

/-- The tree tests listed features, and the counts of its leaves are counts. -/
def Sound (width : Nat) : DecisionTree α → Prop
  | leaf counts => counts.isValid = true
  | split feature _ _ left right => feature < width ∧ left.Sound width ∧ right.Sound width

/-- The tree tests against finite thresholds. -/
def FiniteThresholds : DecisionTree α → Prop
  | leaf _ => True
  | split _ threshold _ left right =>
    Scalar.isFinite threshold = true ∧ left.FiniteThresholds ∧ right.FiniteThresholds

/-- A tree is well formed if it is sound and its thresholds are finite. -/
theorem wellFormed_iff {width : Nat} {tree : DecisionTree α} :
    tree.WellFormed width ↔ tree.Sound width ∧ tree.FiniteThresholds := by
  induction tree with
  | leaf counts => simp [WellFormed, Sound, FiniteThresholds]
  | split feature threshold counts left right ihl ihr =>
    rw [WellFormed, Sound, FiniteThresholds, ihl, ihr]
    tauto

end DecisionTree

namespace FittedTree

variable {α : Type}

/-! ## The tree below a node -/

/-- The node arrays hold a tree below a node; the list has the numbers of its nodes in
pre-order. -/
inductive Describes (t : FittedTree α) : Nat → DecisionTree α → List Nat → Prop
  | leaf {node : Nat} {counts : ClassCounts α} (entry : t.node? node = some (.leaf counts)) :
      Describes t node (.leaf counts) [node]
  | split {node : Nat} {feature leftChild rightChild : Int} {threshold : α}
      {counts : ClassCounts α} {left right : DecisionTree α} {leftNodes rightNodes : List Nat}
      (entry : t.node? node = some (.split feature threshold leftChild rightChild counts))
      (feature_nonneg : 0 ≤ feature) (left_nonneg : 0 ≤ leftChild) (right_nonneg : 0 ≤ rightChild)
      (leftPart : Describes t leftChild.toNat left leftNodes)
      (rightPart : Describes t rightChild.toNat right rightNodes) :
      Describes t node (.split feature.toNat threshold counts left right)
        (node :: (leftNodes ++ rightNodes))

namespace Describes

variable {t : FittedTree α} {node : Nat} {tree : DecisionTree α} {nodes : List Nat}

/-- A described tree has as many nodes as are listed. -/
theorem length_eq (h : t.Describes node tree nodes) : nodes.length = tree.size := by
  induction h with
  | leaf entry => simp [DecisionTree.size]
  | split entry feature_nonneg left_nonneg right_nonneg leftPart rightPart ihl ihr =>
    simp only [List.length_cons, List.length_append, DecisionTree.size]
    omega

/-- The list begins with the root. -/
theorem head_eq (h : t.Describes node tree nodes) : nodes[0]? = some node := by
  cases h <;> simp

theorem node_mem (h : t.Describes node tree nodes) : node ∈ nodes := by
  cases h <;> simp

/-- Every listed node has its entries in the arrays. -/
theorem exists_entry (h : t.Describes node tree nodes) {i : Nat} (hi : i ∈ nodes) :
    ∃ entry, t.node? i = some entry := by
  induction h with
  | leaf entry =>
    rw [List.mem_singleton] at hi
    exact ⟨_, hi ▸ entry⟩
  | split entry feature_nonneg left_nonneg right_nonneg leftPart rightPart ihl ihr =>
    rcases List.mem_cons.1 hi with rfl | hi
    · exact ⟨_, entry⟩
    · rcases List.mem_append.1 hi with hi | hi
      · exact ihl hi
      · exact ihr hi

end Describes

/-- A node with entries is counted. -/
theorem lt_nodeCount_of_node? {t : FittedTree α} {i : Nat} {entry : FittedNode α}
    (h : t.node? i = some entry) : i < t.nodeCount := by
  unfold node? at h
  split at h
  · rename_i feature threshold left right counts hfeature _ _ _ _
    exact (Array.getElem?_eq_some_iff.1 hfeature).1
  · cases h

/-- There are at most `n` distinct numbers below `n`. -/
theorem length_le_of_nodup_of_lt {nodes : List Nat} {n : Nat} (hnodup : nodes.Nodup)
    (hlt : ∀ i ∈ nodes, i < n) : nodes.length ≤ n := by
  have hsub : nodes ⊆ List.range n := fun i hi => List.mem_range.2 (hlt i hi)
  have hlength := (hnodup.subperm hsub).length_le
  rwa [List.length_range] at hlength

/-- A described tree with distinct nodes has no more nodes than the arrays. -/
theorem Describes.size_le_nodeCount {t : FittedTree α} {node : Nat} {tree : DecisionTree α}
    {nodes : List Nat} (h : t.Describes node tree nodes) (hnodup : nodes.Nodup) :
    tree.size ≤ t.nodeCount := by
  rw [← h.length_eq]
  apply length_le_of_nodup_of_lt hnodup
  intro i hi
  obtain ⟨entry, hentry⟩ := h.exists_entry hi
  exact lt_nodeCount_of_node? hentry

/-- A tree of distinct nodes is no deeper than there are nodes. -/
theorem Describes.depth_le_nodeCount {t : FittedTree α} {node : Nat} {tree : DecisionTree α}
    {nodes : List Nat} (h : t.Describes node tree nodes) (hnodup : nodes.Nodup) :
    tree.depth ≤ t.nodeCount :=
  (Nat.le_of_lt tree.depth_lt_size).trans (h.size_le_nodeCount hnodup)

/-- A child entry that leads to a described tree passes its check. -/
theorem child_eq_ok {t : FittedTree α} {node : Nat} {i : Int} {tree : DecisionTree α}
    {nodes : List Nat} (hi : 0 ≤ i) (h : t.Describes i.toNat tree nodes) :
    t.child node i = .ok i.toNat := by
  obtain ⟨entry, hentry⟩ := h.exists_entry h.node_mem
  have hlt : i.toNat < t.nodeCount := lt_nodeCount_of_node? hentry
  unfold child
  rw [if_pos]
  omega

theorem nonneg_of_child_eq_ok {t : FittedTree α} {node k : Nat} {i : Int}
    (h : t.child node i = .ok k) : 0 ≤ i ∧ k = i.toNat := by
  unfold child at h
  split at h
  · rename_i hi
    cases h
    exact ⟨hi.1, rfl⟩
  · cases h

/-! ## Unfolding decides the relation -/

variable [Scalar α]

/-- What one step of unfolding a leaf asks for. -/
theorem unfoldFrom_leaf {t : FittedTree α} {width bound node : Nat} {seen after : List Nat}
    {tree : DecisionTree α} {counts : ClassCounts α} (hnode : node ∉ seen)
    (entry : t.node? node = some (.leaf counts)) :
    t.unfoldFrom width (bound + 1) seen node = .ok (tree, after) ↔
      counts.isValid = true ∧ tree = .leaf counts ∧ after = node :: seen := by
  have hseen : seen.contains node = false := by simpa using hnode
  rw [unfoldFrom, hseen, entry]
  by_cases hvalid : counts.isValid = true <;> simp [hvalid, eq_comm]

/-- What one step of unfolding a split asks for: a listed feature, a finite threshold, and two
parts that unfold one after the other. -/
theorem unfoldFrom_split {t : FittedTree α} {width bound node : Nat} {seen after : List Nat}
    {tree : DecisionTree α} {feature leftChild rightChild : Int} {threshold : α}
    {counts : ClassCounts α} (hnode : node ∉ seen)
    (entry : t.node? node = some (.split feature threshold leftChild rightChild counts)) :
    t.unfoldFrom width (bound + 1) seen node = .ok (tree, after) ↔
      (0 ≤ feature ∧ feature < width) ∧ Scalar.isFinite threshold = true ∧
        ∃ l, t.child node leftChild = .ok l ∧ ∃ r, t.child node rightChild = .ok r ∧
          ∃ left between, t.unfoldFrom width bound (node :: seen) l = .ok (left, between) ∧
            ∃ right, t.unfoldFrom width bound between r = .ok (right, after) ∧
              tree = .split feature.toNat threshold counts left right := by
  have hseen : seen.contains node = false := by simpa using hnode
  have hlisted : ¬ (feature < 0 ∨ (width : Int) ≤ feature) ↔ 0 ≤ feature ∧ feature < width := by
    omega
  rw [unfoldFrom, hseen, entry]
  simp only [Bool.false_eq_true, if_false, Outcome.guard_eq_ok_iff, Outcome.bind_eq_ok_iff,
    Outcome.pure_eq_ok_iff, hlisted, Prod.exists, Prod.mk.injEq, Bool.not_eq_true',
    Bool.not_eq_false]
  constructor
  · rintro ⟨hfeature, hfinite, l, hl, r, hr, left, between, hleft, right, _, hright, rfl, rfl⟩
    exact ⟨hfeature, hfinite, l, hl, r, hr, left, between, hleft, right, hright, rfl⟩
  · rintro ⟨hfeature, hfinite, l, hl, r, hr, left, between, hleft, right, hright, rfl⟩
    exact ⟨hfeature, hfinite, l, hl, r, hr, left, between, hleft, right, after, hright, rfl, rfl⟩

/-- A new node with new left nodes, and right nodes that are new even after those, are distinct and
new together. -/
theorem nodup_of_parts {node : Nat} {seen leftNodes rightNodes : List Nat} (hnode : node ∉ seen)
    (leftNew : ∀ i ∈ leftNodes, i ∉ node :: seen)
    (rightNew : ∀ i ∈ rightNodes, i ∉ leftNodes.reverse ++ node :: seen)
    (leftNodup : leftNodes.Nodup) (rightNodup : rightNodes.Nodup) :
    (node :: (leftNodes ++ rightNodes)).Nodup ∧
      ∀ i ∈ node :: (leftNodes ++ rightNodes), i ∉ seen := by
  simp only [List.mem_append, List.mem_reverse, List.mem_cons, not_or] at leftNew rightNew
  constructor
  · rw [List.nodup_cons, List.nodup_append]
    refine ⟨?_, leftNodup, rightNodup, ?_⟩
    · rw [List.mem_append]
      rintro (hi | hi)
      · exact (leftNew node hi).1 rfl
      · exact (rightNew node hi).2.1 rfl
    · rintro i hi j hj rfl
      exact (rightNew i hj).1 hi
  · intro i hi
    rcases List.mem_cons.1 hi with rfl | hi
    · exact hnode
    · rcases List.mem_append.1 hi with hi | hi
      · exact (leftNew i hi).2
      · exact (rightNew i hi).2.2

/-- What unfolding returns is described by the arrays and well formed, and all its nodes are
new. -/
theorem describes_of_unfoldFrom {t : FittedTree α} {width bound node : Nat} {seen after : List Nat}
    {tree : DecisionTree α} (h : t.unfoldFrom width bound seen node = .ok (tree, after)) :
    ∃ nodes, t.Describes node tree nodes ∧ tree.WellFormed width ∧ nodes.Nodup ∧
      (∀ i ∈ nodes, i ∉ seen) ∧ after = nodes.reverse ++ seen := by
  induction bound generalizing node seen after tree with
  | zero => cases h
  | succ bound ih =>
    have hnode : node ∉ seen := by
      intro hmem
      rw [unfoldFrom, if_pos (by simpa using hmem)] at h
      cases h
    cases hentry : t.node? node with
    | none =>
      rw [unfoldFrom, if_neg (by simpa using hnode), hentry] at h
      cases h
    | some entry =>
      cases entry with
      | leaf counts =>
        obtain ⟨hvalid, rfl, rfl⟩ := (unfoldFrom_leaf hnode hentry).1 h
        refine ⟨[node], .leaf hentry, hvalid, List.nodup_singleton node, ?_, rfl⟩
        simpa using hnode
      | split feature threshold leftChild rightChild counts =>
        obtain ⟨hfeature, hfinite, l, hl, r, hr, left, between, hleft, right, hright, rfl⟩ :=
          (unfoldFrom_split hnode hentry).1 h
        obtain ⟨hl_nonneg, rfl⟩ := nonneg_of_child_eq_ok hl
        obtain ⟨hr_nonneg, rfl⟩ := nonneg_of_child_eq_ok hr
        obtain ⟨leftNodes, leftPart, leftFormed, leftNodup, leftNew, rfl⟩ := ih hleft
        obtain ⟨rightNodes, rightPart, rightFormed, rightNodup, rightNew, rfl⟩ := ih hright
        have hlisted : feature.toNat < width := by omega
        obtain ⟨hnodup, hnew⟩ :=
          nodup_of_parts hnode leftNew rightNew leftNodup rightNodup
        exact ⟨node :: (leftNodes ++ rightNodes),
          .split hentry hfeature.1 hl_nonneg hr_nonneg leftPart rightPart,
          ⟨hlisted, hfinite, leftFormed, rightFormed⟩, hnodup, hnew, by simp⟩

/-- Of distinct new nodes those on the left are new after the root, and those on the right are new
even after those on the left. -/
theorem parts_of_nodup {node : Nat} {seen leftNodes rightNodes : List Nat}
    (hnodup : (node :: (leftNodes ++ rightNodes)).Nodup)
    (hnew : ∀ i ∈ node :: (leftNodes ++ rightNodes), i ∉ seen) :
    (leftNodes.Nodup ∧ ∀ i ∈ leftNodes, i ∉ node :: seen) ∧
      rightNodes.Nodup ∧ ∀ i ∈ rightNodes, i ∉ leftNodes.reverse ++ node :: seen := by
  rw [List.nodup_cons, List.mem_append, not_or, List.nodup_append] at hnodup
  obtain ⟨⟨hleft, hright⟩, leftNodup, rightNodup, hdisjoint⟩ := hnodup
  refine ⟨⟨leftNodup, ?_⟩, rightNodup, ?_⟩
  · intro i hi
    rw [List.mem_cons, not_or]
    exact ⟨fun heq => hleft (heq ▸ hi), hnew i (by simp [hi])⟩
  · intro i hi
    simp only [List.mem_append, List.mem_reverse, List.mem_cons, not_or]
    exact ⟨fun hmem => hdisjoint i hmem i hi rfl, fun heq => hright (heq ▸ hi),
      hnew i (by simp [hi])⟩

/-- Well-formed trees with distinct new nodes are unfolded, as far as the bound exceeds their
depth. -/
theorem unfoldFrom_of_describes {t : FittedTree α} {width node : Nat} {tree : DecisionTree α}
    {nodes : List Nat} (h : t.Describes node tree nodes) :
    ∀ {bound : Nat} {seen : List Nat}, tree.depth < bound → tree.WellFormed width →
      nodes.Nodup → (∀ i ∈ nodes, i ∉ seen) →
        t.unfoldFrom width bound seen node = .ok (tree, nodes.reverse ++ seen) := by
  induction h with
  | leaf entry =>
    intro bound seen hdepth hformed _ hnew
    obtain ⟨bound, rfl⟩ : ∃ k, bound = k + 1 := ⟨bound - 1, by omega⟩
    rw [unfoldFrom_leaf (hnew _ (by simp)) entry]
    exact ⟨hformed, rfl, rfl⟩
  | @split _ _ _ _ _ _ left right _ _ entry feature_nonneg left_nonneg right_nonneg leftPart
      rightPart ihl ihr =>
    intro bound seen hdepth hformed hnodup hnew
    obtain ⟨bound, rfl⟩ : ∃ k, bound = k + 1 := ⟨bound - 1, by omega⟩
    obtain ⟨hlisted, hfinite, leftFormed, rightFormed⟩ := hformed
    obtain ⟨⟨leftNodup, leftNew⟩, rightNodup, rightNew⟩ := parts_of_nodup hnodup hnew
    simp only [DecisionTree.depth] at hdepth
    have hleftDepth : left.depth < bound := by omega
    have hrightDepth : right.depth < bound := by omega
    have hleft := ihl hleftDepth leftFormed leftNodup leftNew
    have hright := ihr hrightDepth rightFormed rightNodup rightNew
    rw [unfoldFrom_split (hnew _ (by simp)) entry]
    refine ⟨⟨feature_nonneg, by omega⟩, hfinite, _, child_eq_ok left_nonneg leftPart, _,
      child_eq_ok right_nonneg rightPart, _, _, hleft, _, hright.trans ?_, rfl⟩
    simp

/-! ## Whole node arrays -/

/-- Node arrays unfold to a tree exactly if they have one shape and describe that tree below node
zero, well formed and with distinct nodes. -/
theorem unfold_eq_ok_iff {t : FittedTree α} {width : Nat} {tree : DecisionTree α} :
    t.unfold width = .ok tree ↔
      t.shapeDefect? = none ∧ tree.WellFormed width ∧
        ∃ nodes, t.Describes 0 tree nodes ∧ nodes.Nodup := by
  unfold unfold
  cases hshape : t.shapeDefect? with
  | some defect => simp
  | none =>
    simp only [Outcome.map_eq_ok_iff, Prod.exists, exists_and_right, exists_eq_right, true_and]
    constructor
    · rintro ⟨after, h⟩
      obtain ⟨nodes, hdescribes, hformed, hnodup, -, -⟩ := describes_of_unfoldFrom h
      exact ⟨hformed, nodes, hdescribes, hnodup⟩
    · rintro ⟨hformed, nodes, hdescribes, hnodup⟩
      refine ⟨_, unfoldFrom_of_describes hdescribes ?_ hformed hnodup (by simp)⟩
      have hdepth := hdescribes.depth_le_nodeCount hnodup
      omega

/-! ## Decision paths -/

theorem valueAt_of_nonneg {features : Array α} {feature : Int} (h : 0 ≤ feature) :
    valueAt features feature = DecisionTree.valueAt features feature.toNat := by
  rw [valueAt, if_neg (by omega)]

/-- The counts of a leaf are those stored at its node. -/
theorem rateAt_of_leaf {t : FittedTree α} {node : Nat} {counts : ClassCounts α}
    (h : t.node? node = some (.leaf counts)) : t.rateAt node = counts.rate := by
  unfold node? at h
  split at h
  · rename_i _ _ _ _ stored _ _ _ _ hstored
    split at h
    · cases h
      rw [rateAt, Array.getD_eq_getD_getElem?, hstored, Option.getD_some]
    · cases h
  · cases h

/-- The nodes on the path from a described node are those at the visited positions of the list
in which the tree's nodes stand. -/
theorem map_visits_eq_pathFrom {t : FittedTree α} {node : Nat} {tree : DecisionTree α}
    {nodes : List Nat} (h : t.Describes node tree nodes) (features : Array α) :
    ∀ {bound slot : Nat} {order : List Nat}, tree.depth ≤ bound → StandsAt nodes order slot →
      (tree.visits features slot).map (fun s => order[s]?) =
        (t.pathFrom features bound node).map some := by
  induction h with
  | @leaf node counts entry =>
    intro bound slot order _ hstands
    have hroot := hstands.head
    cases bound <;> simp [DecisionTree.visits, pathFrom, entry, hroot]
  | @split node feature _ _ threshold _ left right leftNodes rightNodes entry feature_nonneg
      left_nonneg right_nonneg leftPart rightPart ihl ihr =>
    intro bound slot order hdepth hstands
    obtain ⟨bound, rfl⟩ : ∃ k, bound = k + 1 := by
      simp only [DecisionTree.depth] at hdepth
      exact ⟨bound - 1, by omega⟩
    simp only [DecisionTree.depth] at hdepth
    have hleftDepth : left.depth ≤ bound := by omega
    have hrightDepth : right.depth ≤ bound := by omega
    have hright := hstands.right
    rw [leftPart.length_eq] at hright
    rw [pathFrom, entry]
    simp only [DecisionTree.visits, List.map_cons, hstands.head, valueAt_of_nonneg feature_nonneg]
    by_cases hle : DecisionTree.valueAt features feature.toNat ≤ threshold
    · simp only [hle, if_true]
      rw [ihl hleftDepth hstands.left]
    · simp only [hle, if_false]
      rw [ihr hrightDepth hright]

/-- The path from a described node ends in a leaf whose positive share is the prediction of the
tree. -/
theorem getLastD_pathFrom {t : FittedTree α} {node : Nat} {tree : DecisionTree α}
    {nodes : List Nat} (h : t.Describes node tree nodes) (features : Array α) :
    ∀ {bound : Nat} (default : Nat), tree.depth ≤ bound →
      ∃ counts, t.node? ((t.pathFrom features bound node).getLastD default) = some (.leaf counts) ∧
        counts.rate = tree.predict features := by
  induction h with
  | @leaf node counts entry =>
    intro bound default _
    refine ⟨counts, ?_, rfl⟩
    cases bound <;> simp [pathFrom, entry]
  | @split node feature _ _ threshold _ left right leftNodes rightNodes entry feature_nonneg
      left_nonneg right_nonneg leftPart rightPart ihl ihr =>
    intro bound default hdepth
    obtain ⟨bound, rfl⟩ : ∃ k, bound = k + 1 := by
      simp only [DecisionTree.depth] at hdepth
      exact ⟨bound - 1, by omega⟩
    simp only [DecisionTree.depth] at hdepth
    rw [pathFrom, entry]
    simp only [DecisionTree.predict, List.getLastD_cons, valueAt_of_nonneg feature_nonneg]
    by_cases hle : DecisionTree.valueAt features feature.toNat ≤ threshold
    · simp only [hle, if_true]
      exact ihl node (by omega)
    · simp only [hle, if_false]
      exact ihr node (by omega)

section Whole

variable {t : FittedTree α} {tree : DecisionTree α} {nodes : List Nat}

/-- The nodes on a decision path are those at the positions that the tree visits. -/
theorem map_visits_eq_decisionPath (h : t.Describes 0 tree nodes) (hnodup : nodes.Nodup)
    (features : Array α) :
    (tree.visits features 0).map (fun s => nodes[s]?) = (t.decisionPath features).map some :=
  map_visits_eq_pathFrom h features (h.depth_le_nodeCount hnodup) (StandsAt.whole nodes)

/-- A decision path ends in a leaf. -/
theorem leafReached_of_describes (h : t.Describes 0 tree nodes) (hnodup : nodes.Nodup)
    (features : Array α) : ∃ counts, t.node? (t.leafReached features) = some (.leaf counts) := by
  obtain ⟨counts, hentry, -⟩ := getLastD_pathFrom h features 0 (h.depth_le_nodeCount hnodup)
  exact ⟨counts, hentry⟩

/-- Node arrays predict what the tree that they describe predicts. -/
theorem predict_of_describes (h : t.Describes 0 tree nodes) (hnodup : nodes.Nodup)
    (features : Array α) : t.predict features = tree.predict features := by
  obtain ⟨counts, hentry, hrate⟩ :=
    getLastD_pathFrom h features 0 (h.depth_le_nodeCount hnodup)
  rw [predict, leafReached, decisionPath, rateAt_of_leaf hentry, hrate]

end Whole

end FittedTree

end LeadScoring
