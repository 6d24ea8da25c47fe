import LeadScoring.Proofs.Tree.Binding
import Mathlib.Data.List.Forall2

/-!
# Compiled walks follow decision paths

Compiling renumbers the nodes of a fitted tree: the node arrays may list them in any order, the
compiled table has them in pre-order.  This module states what the table keeps of the arrays and
proves that a walk over the bound table visits, in the same order, the nodes that the fitted tree
visits, and answers with the same probability.

Main results:

- Definition `FittedTree.CompiledAs`: a compiled node stands for a fitted one.
- Definition `FittedTree.Mirrors`: a compiled table stands for the node arrays, node by node.
- Theorem `FittedTree.mirrors_ofTree`: the table of a described tree mirrors the node arrays.
- Theorem `FittedTree.bound_walk_follows_decisionPath`: evaluation simulates the fitted tree.
-/

namespace LeadScoring.FittedTree

variable {α : Type} [Scalar α]

/-! ## Fitted nodes and their compiled form -/

/-- A compiled node stands for a fitted one: a leaf has its positive share, and a split has the name
of its feature, its threshold, and the slots of its two children in the given order. -/
inductive CompiledAs (t : FittedTree α) (v : Vocabulary) (order : List Nat) (node : Nat) :
    CompiledNode α → Prop
  | leaf {counts : ClassCounts α} (entry : t.node? node = some (.leaf counts)) :
      CompiledAs t v order node (.leaf counts.rate)
  | split {feature leftChild rightChild : Int} {threshold : α} {counts : ClassCounts α}
      {name : String} {left right : UInt32}
      (entry : t.node? node = some (.split feature threshold leftChild rightChild counts))
      (feature_name : 0 ≤ feature ∧ v.name? feature.toNat = some name)
      (left_slot : 0 ≤ leftChild ∧ order[left.toNat]? = some leftChild.toNat)
      (right_slot : 0 ≤ rightChild ∧ order[right.toNat]? = some rightChild.toNat) :
      CompiledAs t v order node (.split name threshold left right)

/-- A compiled table stands for node arrays: every slot has the compiled form of one fitted node,
the root comes first, and no fitted node has two slots. -/
structure Mirrors (t : FittedTree α) (v : Vocabulary) (c : CompiledTree α) (order : List Nat) :
    Prop where
  nodes : List.Forall₂ (t.CompiledAs v order) order c.nodes.toList
  root : order[0]? = some 0
  nodup : order.Nodup

/-- The slot right behind the left part of a pre-order table. -/
theorem getElem?_toNat_of_standsAt {nodes order : List Nat} {slot node : Nat}
    (hstands : StandsAt nodes order slot) (hroot : nodes[0]? = some node)
    (hslot : slot < 2 ^ 32) : order[(UInt32.ofNat slot).toNat]? = some node := by
  have hslot' : (UInt32.ofNat slot).toNat = slot := by
    rw [UInt32.toNat_ofNat']
    omega
  have hpos : 0 < nodes.length := (List.getElem?_eq_some_iff.1 hroot).1
  rw [hslot', ← Nat.add_zero slot, hstands.getElem?_add hpos, hroot]

/-- The table of a described tree has the compiled forms of the nodes it is described by, wherever
these stand in the order. -/
theorem compiledAs_of_describes {t : FittedTree α} {v : Vocabulary} {node : Nat}
    {tree : DecisionTree α} {nodes : List Nat} (h : t.Describes node tree nodes) :
    ∀ {slot : Nat} {order : List Nat}, tree.WellFormed v.size → StandsAt nodes order slot →
      slot + tree.size ≤ 2 ^ 32 →
        List.Forall₂ (t.CompiledAs v order) nodes
          (CompiledTree.nodesOf (fun i => (v.name? i).getD "") slot tree) := by
  induction h with
  | leaf entry =>
    intro slot order _ _ _
    exact .cons (.leaf entry) .nil
  | @split node feature _ _ threshold _ left right leftNodes rightNodes entry feature_nonneg
      left_nonneg right_nonneg leftPart rightPart ihl ihr =>
    intro slot order hformed hstands hfits
    obtain ⟨hlisted, -, leftFormed, rightFormed⟩ := hformed
    simp only [DecisionTree.size] at hfits
    have hsize := right.size_pos
    obtain ⟨name, hname⟩ := Vocabulary.isSome_name? hlisted
    have hright := hstands.right
    rw [leftPart.length_eq] at hright
    have hroot : t.CompiledAs v order node
        (.split ((v.name? feature.toNat).getD "") threshold (UInt32.ofNat (slot + 1))
          (UInt32.ofNat (slot + 1 + left.size))) := by
      refine .split entry ⟨feature_nonneg, by simp [hname]⟩ ⟨left_nonneg, ?_⟩ ⟨right_nonneg, ?_⟩
      · exact getElem?_toNat_of_standsAt hstands.left leftPart.head_eq (by omega)
      · exact getElem?_toNat_of_standsAt hright rightPart.head_eq (by omega)
    have hleftFits : slot + 1 + left.size ≤ 2 ^ 32 := by omega
    have hleftPart := ihl leftFormed hstands.left hleftFits
    have hrightPart := ihr rightFormed hright (by omega)
    exact .cons hroot (List.rel_append hleftPart hrightPart)

/-! ## Compilation -/

/-- Compiling succeeds exactly where unfolding does, and lays out the unfolded tree. -/
theorem compile_eq_ok_iff {t : FittedTree α} {v : Vocabulary} {c : CompiledTree α} :
    t.compile v = .ok c ↔
      ∃ tree, t.unfold v.size = .ok tree ∧
        c = CompiledTree.ofTree (fun i => (v.name? i).getD "") tree := by
  rw [compile, Outcome.map_eq_ok_iff]
  simp only [eq_comm]

/-- What a compiled tree comes from: a well-formed tree that the node arrays describe. -/
theorem exists_describes_of_compile {t : FittedTree α} {v : Vocabulary} {c : CompiledTree α}
    (h : t.compile v = .ok c) :
    ∃ tree nodes, t.unfold v.size = .ok tree ∧ tree.WellFormed v.size ∧
      t.Describes 0 tree nodes ∧ nodes.Nodup ∧ c.nodeCount = tree.size ∧
      c = CompiledTree.ofTree (fun i => (v.name? i).getD "") tree := by
  obtain ⟨tree, hunfold, rfl⟩ := compile_eq_ok_iff.1 h
  obtain ⟨-, hformed, nodes, hdescribes, hnodup⟩ := unfold_eq_ok_iff.1 hunfold
  exact ⟨tree, nodes, hunfold, hformed, hdescribes, hnodup, CompiledTree.nodeCount_ofTree _ tree,
    rfl⟩

/-- The compiled table of a described tree mirrors the node arrays in pre-order. -/
theorem mirrors_ofTree {t : FittedTree α} {v : Vocabulary} {tree : DecisionTree α}
    {nodes : List Nat} (hdescribes : t.Describes 0 tree nodes) (hnodup : nodes.Nodup)
    (hformed : tree.WellFormed v.size) (hsize : tree.size ≤ 2 ^ 32) :
    t.Mirrors v (CompiledTree.ofTree (fun i => (v.name? i).getD "") tree) nodes where
  nodes := compiledAs_of_describes hdescribes hformed (StandsAt.whole nodes) (by omega)
  root := hdescribes.head_eq
  nodup := hnodup

/-! ## Simulation -/

/-- Whatever the vector holds, a walk over the bound table visits the slots of the nodes on the
decision path, in their order, and answers with the prediction of the fitted tree, which is the
positive share at the leaf where the path ends. -/
theorem bound_walk_follows_decisionPath {t : FittedTree Float} {v : Vocabulary}
    {c : CompiledTree Float} (number : Nat) (h : t.compile v = .ok c)
    (hcount : c.nodeCount ≤ 2 ^ 32) :
    ∃ b order, BoundTree.bind v number c = .ok b ∧ b.nodes.size = c.nodeCount ∧
      t.Mirrors v c order ∧
      ∀ values : Array Float,
        b.evaluate values = some (t.predict values) ∧
          (b.visited values).map (fun slot => order[slot]?) = (t.decisionPath values).map some ∧
          ∃ counts, t.node? (t.leafReached values) = some (.leaf counts) := by
  obtain ⟨tree, nodes, -, hformed, hdescribes, hnodup, hsize, rfl⟩ := exists_describes_of_compile h
  rw [hsize] at hcount
  refine ⟨BoundTree.ofTree tree, nodes, BoundTree.bind_ofTree hformed hcount, ?_,
    mirrors_ofTree hdescribes hnodup hformed hcount, ?_⟩
  · rw [hsize, BoundTree.ofTree, List.size_toArray, BoundTree.length_nodesOf]
  · intro values
    refine ⟨?_, ?_, leafReached_of_describes hdescribes hnodup values⟩
    · rw [predict_of_describes hdescribes hnodup]
      exact BoundTree.evaluate_ofTree tree values
    · rw [BoundTree.visited_ofTree]
      exact map_visits_eq_decisionPath hdescribes hnodup values

/-- Arrays whose right child stands before the left one, so that compiling renumbers the nodes. -/
def swappedStump : FittedTree Float where
  feature := #[0, -2, -2]
  threshold := #[0.5, -2.0, -2.0]
  childrenLeft := #[2, -1, -1]
  childrenRight := #[1, -1, -1]
  counts := #[⟨2.0, 2.0⟩, ⟨0.0, 2.0⟩, ⟨2.0, 0.0⟩]

/-- The vocabulary with one name. -/
def singleName : Vocabulary :=
  .ofNames ["Page Views"] []

/-- A stump whose right child stands in front of its left one. -/
theorem bound_walk_swappedStump :
    ∃ c, swappedStump.compile singleName = .ok c ∧ c.nodeCount ≤ 2 ^ 32 ∧
      ∃ b order, BoundTree.bind singleName 0 c = .ok b ∧ b.nodes.size = c.nodeCount ∧
        swappedStump.Mirrors singleName c order ∧
        ∀ values : Array Float,
          b.evaluate values = some (swappedStump.predict values) ∧
            (b.visited values).map (fun slot => order[slot]?) =
              (swappedStump.decisionPath values).map some ∧
            ∃ counts,
              swappedStump.node? (swappedStump.leafReached values) = some (.leaf counts) := by
  have hcompile : swappedStump.compile singleName = .ok ⟨#[.split "Page Views" 0.5 1 2,
      .leaf (ClassCounts.rate ⟨2.0, 0.0⟩), .leaf (ClassCounts.rate ⟨0.0, 2.0⟩)]⟩ := by rfl
  have hcount : (3 : Nat) ≤ 2 ^ 32 := by omega
  exact ⟨_, hcompile, hcount, bound_walk_follows_decisionPath 0 hcompile hcount⟩

end LeadScoring.FittedTree
