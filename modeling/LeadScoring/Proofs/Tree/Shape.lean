import LeadScoring.Proofs.Tree.Layout
import LeadScoring.Proofs.Tree.Numbering
import LeadScoring.Proofs.Tree.Reachable
import LeadScoring.Proofs.Tree.Simulation

/-!
# The shape of tables

Compiling numbers the nodes of a tree in pre-order, and so do the arrays of a grown tree.  This
module reads the shape of both tables off the tree that they lay out: where children stand, how many
nodes and leaves there are, and how long the longest way to a leaf is.

Main results:

- Definitions `CompiledTree.children?`, `FittedTree.children?`: the child entries of a table.
- Theorems `CompiledTree.laysOut_ofTree`, `FittedTree.laysOut_ofTree`: the tables of a tree lay it
  out.
- Theorem `FittedTree.mem_iff_reaches`: the nodes of a described tree are the reachable ones.
- Theorem `CompiledTree.depthFrom_of_laysOut`: the budget of the depth is not used up.
- Theorem `FittedTree.shape_of_compile`: the shape of a compiled tree.
-/

namespace LeadScoring

variable {α : Type}

namespace DecisionTree

/-- Every split adds one leaf. -/
theorem size_add_one (tree : DecisionTree α) : tree.size + 1 = 2 * tree.leafCount := by
  induction tree with
  | leaf counts => rfl
  | split feature threshold counts left right ihl ihr =>
    simp only [size, leafCount]
    omega

end DecisionTree

/-! ## Compiled tables -/

namespace CompiledTree

/-- The child entries of a compiled table. -/
def children? (c : CompiledTree α) : Branching := fun slot =>
  match c.nodes[slot]? with
  | some (.split _ _ left right) => some (left.toNat, right.toNat)
  | _ => none

/-- The numbers of edges on the ways from the root to a leaf. -/
def leafDepths (c : CompiledTree α) : Set Nat :=
  {edges | ∃ slot p, c.children?.Descends 0 edges slot ∧ c.nodes[slot]? = some (.leaf p)}

variable {c : CompiledTree α} {slot : Nat}

/-- Nothing stands behind the last node. -/
theorem children?_of_le (h : c.nodeCount ≤ slot) : c.children? slot = none := by
  rw [children?, Array.getElem?_eq_none h]

/-- A node without children is a leaf. -/
theorem exists_leaf (hslot : slot < c.nodeCount) (h : c.children? slot = none) :
    ∃ p, c.nodes[slot]? = some (.leaf p) := by
  have hentry : c.nodes[slot]? = some c.nodes[slot] := Array.getElem?_eq_getElem hslot
  cases hnode : c.nodes[slot] with
  | leaf p => exact ⟨p, by rw [hentry, hnode]⟩
  | split name threshold left right =>
    rw [hnode] at hentry
    simp [children?, hentry] at h

theorem children?_of_leaf {p : α} (h : c.nodes[slot]? = some (.leaf p)) :
    c.children? slot = none := by
  rw [children?, h]

/-! ### Depth -/

theorem depthFrom_succ (c : CompiledTree α) (budget slot : Nat) :
    c.depthFrom (budget + 1) slot =
      match c.children? slot with
      | some (left, right) => 1 + max (c.depthFrom budget left) (c.depthFrom budget right)
      | none => 0 := by
  rw [depthFrom, children?]
  cases c.nodes[slot]? with
  | none => rfl
  | some node => cases node <;> rfl

/-- A budget that is not below the depth of a tree is enough to measure it. -/
theorem depthFrom_of_laysOut {tree : DecisionTree α} {budget : Nat}
    (h : c.children?.LaysOut slot tree) (hbudget : tree.depth ≤ budget) :
    c.depthFrom budget slot = tree.depth := by
  induction tree generalizing slot budget with
  | leaf counts =>
    cases budget with
    | zero => rfl
    | succ budget =>
      have hroot : c.children? slot = none := h
      rw [depthFrom_succ, hroot]
      rfl
  | split feature threshold counts left right ihl ihr =>
    obtain ⟨hroot, hleft, hright⟩ := h
    simp only [DecisionTree.depth] at hbudget
    obtain ⟨budget, rfl⟩ : ∃ k, budget = k + 1 := ⟨budget - 1, by omega⟩
    rw [depthFrom_succ, hroot]
    dsimp only
    rw [ihl hleft (by omega), ihr hright (by omega), DecisionTree.depth]

/-! ### Tables of a tree -/

variable [Scalar α]

/-- Where the table of a part stands, the part is laid out, as long as its positions fit into child
entries. -/
theorem laysOut_of_standsAt {nameOf : Nat → String} {part : DecisionTree α}
    (h : StandsAt (nodesOf nameOf slot part) c.nodes.toList slot)
    (hfits : slot + part.size ≤ 2 ^ 32) : c.children?.LaysOut slot part := by
  induction part generalizing slot with
  | leaf counts =>
    have hroot := h.head
    rw [Array.getElem?_toList] at hroot
    exact children?_of_leaf hroot
  | split feature threshold counts left right ihl ihr =>
    have hroot := h.head
    have hright := h.right
    rw [Array.getElem?_toList] at hroot
    rw [length_nodesOf] at hright
    simp only [DecisionTree.size] at hfits
    have hpos := right.size_pos
    refine ⟨?_, ihl h.left (by omega), ihr hright (by omega)⟩
    rw [children?, hroot]
    simp only [UInt32.toNat_ofNat']
    rw [Nat.mod_eq_of_lt (by omega), Nat.mod_eq_of_lt (by omega)]

/-- The compiled table of a tree lays it out from its first node on. -/
theorem laysOut_ofTree (nameOf : Nat → String) {tree : DecisionTree α} (h : tree.size ≤ 2 ^ 32) :
    (ofTree nameOf tree).children?.LaysOut 0 tree :=
  laysOut_of_standsAt (StandsAt.whole _) (by omega)

/-- A laid-out tree has the leaves of the tree. -/
theorem leafCount_ofTree (nameOf : Nat → String) (tree : DecisionTree α) :
    (ofTree nameOf tree).leafCount = tree.leafCount := by
  have hcount : ∀ slot, (nodesOf nameOf slot tree).countP CompiledNode.isLeaf = tree.leafCount := by
    induction tree with
    | leaf counts => exact fun _ => rfl
    | split feature threshold counts left right ihl ihr =>
      intro slot
      rw [nodesOf, List.countP_cons_of_neg (by simp [CompiledNode.isLeaf]), List.countP_append, ihl,
        ihr, DecisionTree.leafCount]
  rw [leafCount, ofTree, List.countP_toArray, hcount]

/-- The compiled table of a tree has leaves at its depth and none below. -/
theorem isGreatest_depth_ofTree {nameOf : Nat → String} {tree : DecisionTree α}
    (h : tree.size ≤ 2 ^ 32) :
    IsGreatest (ofTree nameOf tree).leafDepths (ofTree nameOf tree).depth := by
  have hlays := laysOut_ofTree nameOf h
  have hdepth : (ofTree nameOf tree).depth = tree.depth := by
    refine depthFrom_of_laysOut hlays ?_
    rw [nodeCount_ofTree]
    exact tree.depth_lt_size.le
  have hleaves : (ofTree nameOf tree).leafDepths = {edges | ∃ leaf,
      (ofTree nameOf tree).children?.Descends 0 edges leaf ∧
        (ofTree nameOf tree).children? leaf = none} := by
    ext edges
    constructor
    · rintro ⟨slot, p, hway, hleaf⟩
      exact ⟨slot, hway, children?_of_leaf hleaf⟩
    · rintro ⟨slot, hway, hend⟩
      have hbelow : slot ∈ (ofTree nameOf tree).children?.below 0 := ⟨edges, hway⟩
      rw [hlays.below_eq, Set.mem_Ico, Nat.zero_add, ← nodeCount_ofTree nameOf] at hbelow
      obtain ⟨p, hleaf⟩ := exists_leaf hbelow.2 hend
      exact ⟨slot, p, hway, hleaf⟩
  rw [hleaves, hdepth]
  exact hlays.isGreatest_depth

end CompiledTree

/-! ## Node arrays -/

namespace FittedTree

/-- The child entries of node arrays. -/
def children? (t : FittedTree α) : Branching := fun node =>
  match t.node? node with
  | some (.split _ _ left right _) => some (left.toNat, right.toNat)
  | _ => none

/-- Only nodes have children. -/
theorem lt_nodeCount_of_children? {t : FittedTree α} {node : Nat} (h : t.children? node ≠ none) :
    node < t.nodeCount := by
  unfold children? at h
  cases hentry : t.node? node with
  | none => simp [hentry] at h
  | some entry => exact lt_nodeCount_of_node? hentry

section Layout

variable [Scalar α]

/-- Where the rows of a part stand among those of the whole tree, its arrays lay out the part. -/
theorem laysOut_of_standsAt {whole part : DecisionTree α} {slot : Nat}
    (h : StandsAt (rowsOf slot part) (rowsOf 0 whole) slot) :
    (ofTree whole).children?.LaysOut slot part := by
  induction part generalizing slot with
  | leaf counts =>
    change (ofTree whole).children? slot = none
    rw [children?, node?_ofTree h.head, if_pos rfl]
  | split feature threshold counts left right ihl ihr =>
    have hright := h.right
    rw [length_rowsOf] at hright
    refine ⟨?_, ihl h.left, ihr hright⟩
    rw [children?, node?_of_standsAt_split h]
    rfl

/-- The arrays of a tree lay it out from node zero on. -/
theorem laysOut_ofTree (tree : DecisionTree α) : (ofTree tree).children?.LaysOut 0 tree :=
  laysOut_of_standsAt (StandsAt.whole _)

/-- The arrays of a tree are numbered in pre-order. -/
theorem preOrder_ofTree (tree : DecisionTree α) :
    (ofTree tree).children?.PreOrder (ofTree tree).nodeCount := by
  rw [nodeCount_ofTree]
  refine (laysOut_ofTree tree).preOrder fun i hi => ?_
  rw [← nodeCount_ofTree] at hi
  by_contra hsplit
  exact absurd (lt_nodeCount_of_children? hsplit) (not_lt.2 hi)

end Layout

/-! ## Reachable nodes -/

section Reachable

variable {t : FittedTree α} {tree : DecisionTree α} {nodes : List Nat}

/-- The children of a listed node are listed. -/
theorem Describes.children_mem {node i : Nat} {feature left right : Int} {threshold : α}
    {counts : ClassCounts α} (h : t.Describes node tree nodes) (hi : i ∈ nodes)
    (entry : t.node? i = some (.split feature threshold left right counts)) :
    left.toNat ∈ nodes ∧ right.toNat ∈ nodes := by
  induction h with
  | leaf leafEntry =>
    rw [List.mem_singleton] at hi
    subst hi
    cases entry.symm.trans leafEntry
  | split splitEntry feature_nonneg left_nonneg right_nonneg leftPart rightPart ihl ihr =>
    simp only [List.mem_cons, List.mem_append] at hi ⊢
    rcases hi with rfl | hi | hi
    · cases entry.symm.trans splitEntry
      exact ⟨Or.inr (Or.inl leftPart.node_mem), Or.inr (Or.inr rightPart.node_mem)⟩
    · obtain ⟨hleft, hright⟩ := ihl hi
      exact ⟨Or.inr (Or.inl hleft), Or.inr (Or.inl hright)⟩
    · obtain ⟨hleft, hright⟩ := ihr hi
      exact ⟨Or.inr (Or.inr hleft), Or.inr (Or.inr hright)⟩

/-- The nodes of a tree described below node zero are the reachable ones. -/
theorem mem_iff_reaches (h : t.Describes 0 tree nodes) {i : Nat} : i ∈ nodes ↔ t.Reaches i := by
  constructor
  · exact h.reaches .root i
  · intro hreach
    induction hreach with
    | root => exact h.node_mem
    | left above entry inside ih => exact (h.children_mem ih entry).1
    | right above entry inside ih => exact (h.children_mem ih entry).2

/-- A tree has as many nodes as the arrays that describe it have reachable ones. -/
theorem ncard_reaches (h : t.Describes 0 tree nodes) (hnodup : nodes.Nodup) :
    {i | t.Reaches i}.ncard = tree.size := by
  have hset : {i | t.Reaches i} = (nodes.toFinset : Set Nat) := by
    ext i
    simp [mem_iff_reaches h]
  rw [hset, Set.ncard_coe_finset, List.toFinset_card_of_nodup hnodup, h.length_eq]

end Reachable

/-! ## Compiled trees -/

variable [Scalar α]

/-- A compiled tree is numbered in pre-order.  It has as many nodes as the arrays have reachable
ones, and one node less than twice as many leaves; and its depth, which is measured on a budget, is
the length of the longest way from the root to a leaf. -/
theorem shape_of_compile {t : FittedTree α} {v : Vocabulary} {c : CompiledTree α}
    (h : t.compile v = .ok c) (hcount : c.nodeCount ≤ 2 ^ 32) :
    c.children?.PreOrder c.nodeCount ∧ c.nodeCount = {i | t.Reaches i}.ncard ∧
      c.nodeCount + 1 = 2 * c.leafCount ∧ IsGreatest c.leafDepths c.depth := by
  obtain ⟨tree, nodes, -, -, hdescribes, hnodup, hsize, rfl⟩ := exists_describes_of_compile h
  rw [hsize] at hcount
  refine ⟨?_, ?_, ?_, CompiledTree.isGreatest_depth_ofTree hcount⟩
  · rw [hsize]
    refine (CompiledTree.laysOut_ofTree _ hcount).preOrder fun i hi => ?_
    exact CompiledTree.children?_of_le (hsize ▸ hi)
  · rw [hsize, ncard_reaches hdescribes hnodup]
  · rw [hsize, CompiledTree.leafCount_ofTree, tree.size_add_one]

/-- Arrays that list the right part of the root before the left one, with a node in between that
nothing leads to. -/
def scatteredArrays : FittedTree Float where
  feature := #[0, 1, 0, -2, -2, -2]
  threshold := #[5.5, 0.5, 7.5, -2.0, -2.0, -2.0]
  childrenLeft := #[5, 3, 2, -1, -1, -1]
  childrenRight := #[1, 4, 9, -1, -1, -1]
  counts := #[⟨5.0, 5.0⟩, ⟨1.0, 4.0⟩, ⟨0.0, 0.0⟩, ⟨1.0, 1.0⟩, ⟨0.0, 3.0⟩, ⟨4.0, 1.0⟩]

/-- The vocabulary of the two names that they test. -/
def twoNames : Vocabulary :=
  .ofNames ["Page Views", "Downloads"] []

/-- Arrays with an entry that nothing leads to and children in no order. -/
theorem shape_of_compile_scatteredArrays :
    ∃ c, scatteredArrays.compile twoNames = .ok c ∧ c.nodeCount ≤ 2 ^ 32 ∧
      c.children?.PreOrder c.nodeCount ∧ c.nodeCount = {i | scatteredArrays.Reaches i}.ncard ∧
      c.nodeCount + 1 = 2 * c.leafCount ∧ IsGreatest c.leafDepths c.depth ∧ c.nodeCount = 5 ∧
      c.depth = 2 := by
  have hcompile : scatteredArrays.compile twoNames = .ok ⟨#[.split "Page Views" 5.5 1 2,
      .leaf (ClassCounts.rate ⟨4.0, 1.0⟩), .split "Downloads" 0.5 3 4,
      .leaf (ClassCounts.rate ⟨1.0, 1.0⟩), .leaf (ClassCounts.rate ⟨0.0, 3.0⟩)]⟩ := by rfl
  have hcount : (5 : Nat) ≤ 2 ^ 32 := by omega
  obtain ⟨hpre, hreach, hleaves, hdepth⟩ := shape_of_compile hcompile hcount
  exact ⟨_, hcompile, hcount, hpre, hreach, hleaves, hdepth, rfl, by rfl⟩

end FittedTree

end LeadScoring
