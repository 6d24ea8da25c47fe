import LeadScoring.Artifact.Document
import LeadScoring.Proofs.Artifact.Acceptance
import LeadScoring.Proofs.Tree.Reachable
import Mathlib.Logic.Equiv.Defs
import Mathlib.Logic.Relation

/-!
# Layouts of fitted trees

One tree can be laid out in node arrays in many ways: its nodes may be numbered in any order, nodes
that belong to no path may stand among them, and leaves have thresholds and children, splits have
class counts, that no vector ever meets.  This module shows that compiling forgets the layout: node
arrays that differ in nothing else compile to the same table, so that forests of such arrays have
the same artifact, with the same text and digest.

Main results:

- Definition `FittedTree.LayoutChange`: one change of the layout, and `FittedTree.Relayout` for any
  number of them.
- Definition `FittedTree.Carries`: a numbering carries the reachable nodes over to other arrays.
- Theorem `FittedTree.Carries.compile`: arrays that nodes are carried over to compile alike.
- Theorem `Artifact.compile_of_relayout`: the artifact of a forest does not depend on the layout.
-/

namespace LeadScoring

/-! ## Trees that test alike -/

namespace DecisionTree

variable {α : Type}

/-- Trees that differ in nothing but the class counts of their splits. -/
inductive SameTests : DecisionTree α → DecisionTree α → Prop
  | leaf (counts : ClassCounts α) : SameTests (.leaf counts) (.leaf counts)
  | split {left right left' right' : DecisionTree α} (feature : Nat) (threshold : α)
      (counts counts' : ClassCounts α) (leftPart : SameTests left left')
      (rightPart : SameTests right right') :
      SameTests (.split feature threshold counts left right)
        (.split feature threshold counts' left' right')

namespace SameTests

variable {tree tree' : DecisionTree α}

/-- Trees with the same tests have as many nodes. -/
theorem size_eq (h : SameTests tree tree') : tree'.size = tree.size := by
  induction h with
  | leaf counts => rfl
  | split feature threshold counts counts' leftPart rightPart ihl ihr =>
    rw [size, size, ihl, ihr]

variable [Scalar α]

/-- Trees with the same tests are well formed together. -/
theorem wellFormed {width : Nat} (h : SameTests tree tree') (hformed : tree.WellFormed width) :
    tree'.WellFormed width := by
  induction h with
  | leaf counts => exact hformed
  | split feature threshold counts counts' leftPart rightPart ihl ihr =>
    obtain ⟨hfeature, hfinite, hleft, hright⟩ := hformed
    exact ⟨hfeature, hfinite, ihl hleft, ihr hright⟩

/-- A table shows nothing of the class counts of splits. -/
theorem nodesOf_eq (h : SameTests tree tree') (nameOf : Nat → String) (slot : Nat) :
    CompiledTree.nodesOf nameOf slot tree' = CompiledTree.nodesOf nameOf slot tree := by
  induction h generalizing slot with
  | leaf counts => rfl
  | split feature threshold counts counts' leftPart rightPart ihl ihr =>
    rw [CompiledTree.nodesOf, CompiledTree.nodesOf, ihl, ihr, leftPart.size_eq]

end SameTests

end DecisionTree

namespace FittedTree

variable {α : Type} {t t' : FittedTree α}

/-! ## Numberings -/

/-- A numbering carries the reachable nodes of node arrays over to other arrays: the root stays,
leaves keep their counts, and splits keep their test and have the children's new numbers. -/
structure Carries (number : Nat → Nat) (t t' : FittedTree α) : Prop where
  root : number 0 = 0
  injective : Function.Injective number
  leaf : ∀ {node counts}, t.Reaches node → t.node? node = some (.leaf counts) →
    t'.node? (number node) = some (.leaf counts)
  split : ∀ {node feature threshold left right counts}, t.Reaches node →
    t.node? node = some (.split feature threshold left right counts) →
    (0 ≤ left ∧ left < t.nodeCount) → (0 ≤ right ∧ right < t.nodeCount) →
    ∃ counts', t'.node? (number node) =
      some (.split feature threshold (number left.toNat) (number right.toNat) counts')

/-- A tree described in some arrays is described, but for the counts of its splits, wherever its
nodes are carried over to. -/
theorem Carries.exists_describes {number : Nat → Nat} (h : Carries number t t') {node : Nat}
    {tree : DecisionTree α} {nodes : List Nat} (hdescribes : t.Describes node tree nodes)
    (hnode : t.Reaches node) :
    ∃ tree', t'.Describes (number node) tree' (nodes.map number) ∧ tree.SameTests tree' := by
  induction hdescribes with
  | leaf entry => exact ⟨_, .leaf (h.leaf hnode entry), .leaf _⟩
  | @split node feature l r threshold counts left right leftNodes rightNodes entry feature_nonneg
      left_nonneg right_nonneg leftPart rightPart ihl ihr =>
    obtain ⟨leftEntry, hleft⟩ := leftPart.exists_entry leftPart.node_mem
    obtain ⟨rightEntry, hright⟩ := rightPart.exists_entry rightPart.node_mem
    have hleft_lt := lt_nodeCount_of_node? hleft
    have hright_lt := lt_nodeCount_of_node? hright
    have hleft_inside : 0 ≤ l ∧ l < t.nodeCount := ⟨left_nonneg, by omega⟩
    have hright_inside : 0 ≤ r ∧ r < t.nodeCount := ⟨right_nonneg, by omega⟩
    obtain ⟨left', leftPart', hleft_tests⟩ := ihl (hnode.left entry hleft_inside)
    obtain ⟨right', rightPart', hright_tests⟩ := ihr (hnode.right entry hright_inside)
    obtain ⟨counts', entry'⟩ := h.split hnode entry hleft_inside hright_inside
    refine ⟨.split feature.toNat threshold counts' left' right', ?_,
      .split _ _ _ _ hleft_tests hright_tests⟩
    rw [List.map_cons, List.map_append]
    exact .split entry' feature_nonneg (Int.natCast_nonneg _) (Int.natCast_nonneg _)
      (by simpa using leftPart') (by simpa using rightPart')

/-- Arrays of one length compile to the same table as those whose nodes they have. -/
theorem Carries.compile [Scalar α] {number : Nat → Nat} (h : Carries number t t')
    (hlength : t'.OneLength) {v : Vocabulary} {c : CompiledTree α} (hcompile : t.compile v = .ok c) :
    t'.compile v = .ok c := by
  obtain ⟨tree, hunfold, rfl⟩ := compile_eq_ok_iff.1 hcompile
  obtain ⟨-, hformed, nodes, hdescribes, hnodup⟩ := unfold_eq_ok_iff.1 hunfold
  obtain ⟨tree', hdescribes', htests⟩ := h.exists_describes hdescribes .root
  rw [h.root] at hdescribes'
  have hunfold' : t'.unfold v.size = .ok tree' := unfold_eq_ok_iff.2
    ⟨shapeDefect?_eq_none_iff.2 hlength, htests.wellFormed hformed, _, hdescribes',
      hnodup.map h.injective⟩
  refine compile_eq_ok_iff.2 ⟨tree', hunfold', ?_⟩
  rw [CompiledTree.ofTree, CompiledTree.ofTree, htests.nodesOf_eq]

/-! ## Changes of the layout -/

/-- The entries at a position, if all five arrays have one. -/
def row? (t : FittedTree α) (i : Nat) : Option (Row α) :=
  match t.feature[i]?, t.threshold[i]?, t.childrenLeft[i]?, t.childrenRight[i]?, t.counts[i]? with
  | some feature, some threshold, some left, some right, some counts =>
    some ⟨feature, threshold, left, right, counts⟩
  | _, _, _, _, _ => none

namespace Row

/-- The node that entries stand for. -/
def node (row : Row α) : FittedNode α :=
  if row.feature = leafFeature then .leaf row.counts
  else .split row.feature row.threshold row.left row.right row.counts

/-- A child entry with the child's new number; an entry that names no node is kept. -/
def renumberChild (number : Nat → Nat) (nodeCount : Nat) (child : Int) : Int :=
  if 0 ≤ child ∧ child < nodeCount then number child.toNat else child

/-- The entries with the children's new numbers. -/
def renumber (number : Nat → Nat) (nodeCount : Nat) (row : Row α) : Row α :=
  { row with
    left := renumberChild number nodeCount row.left
    right := renumberChild number nodeCount row.right }

/-- The entries that count are equal: the class counts at a leaf, the test and the children at a
split. -/
structure SameUse (row row' : Row α) : Prop where
  feature : row'.feature = row.feature
  leaf : row.feature = leafFeature → row'.counts = row.counts
  split : row.feature ≠ leafFeature →
    row'.threshold = row.threshold ∧ row'.left = row.left ∧ row'.right = row.right

end Row

/-- A node is read off the entries at its position. -/
theorem node?_eq_some_iff {i : Nat} {entry : FittedNode α} :
    t.node? i = some entry ↔ ∃ row, t.row? i = some row ∧ row.node = entry := by
  have hmap : t.node? i = (t.row? i).map Row.node := by
    unfold node? row?
    split
    · simp only [*, Option.map_some, Row.node, apply_ite some]
    · simp only [*, Option.map_none]
  rw [hmap, Option.map_eq_some_iff]

theorem lt_nodeCount_of_row? {i : Nat} {row : Row α} (h : t.row? i = some row) :
    i < t.nodeCount :=
  lt_nodeCount_of_node? (node?_eq_some_iff.2 ⟨row, h, rfl⟩)

/-- A row is that of a leaf exactly if its feature says so. -/
theorem Row.node_eq_leaf_iff {row : Row α} {counts : ClassCounts α} :
    row.node = .leaf counts ↔ row.feature = leafFeature ∧ row.counts = counts := by
  unfold Row.node
  split_ifs with h <;> simp [h]

/-- A row is that of a split exactly if its feature is not the one of leaves. -/
theorem Row.node_eq_split_iff {row : Row α} {feature left right : Int} {threshold : α}
    {counts : ClassCounts α} :
    row.node = .split feature threshold left right counts ↔
      row.feature ≠ leafFeature ∧ row = ⟨feature, threshold, left, right, counts⟩ := by
  unfold Row.node
  split_ifs with h
  · simp [h]
  · cases row
    simp_all

/-- One change of the layout. -/
inductive LayoutChange (t t' : FittedTree α) : Prop
  /-- The nodes are numbered otherwise, the root staying in front. -/
  | renumbered (number : Equiv.Perm Nat) (root : number 0 = 0) (lengths : t.SameLengths t')
      (rows : ∀ i row, t.row? i = some row →
        t'.row? (number i) = some (row.renumber number t.nodeCount))
  /-- Nodes to which nothing leads are added or taken away. -/
  | unreachable (length : t'.OneLength) (rows : ∀ i, t.Reaches i → t'.row? i = t.row? i)
  /-- Leaves have other thresholds and children, and splits other class counts. -/
  | unused (lengths : t.SameLengths t')
      (rows : ∀ i row, t.row? i = some row → ∃ row', t'.row? i = some row' ∧ row.SameUse row')

/-- Any number of changes of the layout, one after the other. -/
def Relayout : FittedTree α → FittedTree α → Prop :=
  Relation.ReflTransGen LayoutChange

/-- Arrays whose lengths are those of others have one length if the others do. -/
theorem SameLengths.oneLength (h : t.SameLengths t') (hlength : t.OneLength) : t'.OneLength := by
  obtain ⟨hnonempty, hthreshold, hleft, hright, hcounts⟩ := hlength
  constructor
  · rwa [h.feature]
  · rw [h.threshold, h.feature, hthreshold]
  · rw [h.childrenLeft, h.feature, hleft]
  · rw [h.childrenRight, h.feature, hright]
  · rw [h.counts, h.feature, hcounts]

/-- A change of the layout keeps the arrays at one length. -/
theorem LayoutChange.oneLength (h : t.LayoutChange t') (hlength : t.OneLength) :
    t'.OneLength := by
  cases h with
  | renumbered number root lengths rows => exact lengths.oneLength hlength
  | unreachable length rows => exact length
  | unused lengths rows => exact lengths.oneLength hlength

/-- Every change of the layout carries the reachable nodes over: by the new numbers, or to the same
places. -/
theorem LayoutChange.exists_carries (h : t.LayoutChange t') :
    ∃ number, Carries number t t' := by
  cases h with
  | renumbered number root lengths rows =>
    refine ⟨number, root, number.injective, ?_, ?_⟩
    · intro node counts _ hnode
      obtain ⟨row, hrow, heq⟩ := node?_eq_some_iff.1 hnode
      obtain ⟨hleaf, hcounts⟩ := Row.node_eq_leaf_iff.1 heq
      exact node?_eq_some_iff.2
        ⟨_, rows node row hrow, Row.node_eq_leaf_iff.2 ⟨hleaf, hcounts⟩⟩
    · intro node feature threshold left right counts _ hnode hleft hright
      obtain ⟨row, hrow, heq⟩ := node?_eq_some_iff.1 hnode
      obtain ⟨hsplit, rfl⟩ := Row.node_eq_split_iff.1 heq
      refine ⟨counts, node?_eq_some_iff.2 ⟨_, rows node _ hrow, Row.node_eq_split_iff.2 ⟨hsplit, ?_⟩⟩⟩
      rw [Row.renumber, Row.renumberChild, Row.renumberChild, if_pos hleft, if_pos hright]
  | unreachable length rows =>
    have hsame : ∀ {node entry}, t.Reaches node → t.node? node = some entry →
        t'.node? node = some entry := by
      intro node entry hreach hnode
      rw [node?_eq_some_iff] at hnode ⊢
      rwa [rows node hreach]
    refine ⟨id, rfl, Function.injective_id, hsame, ?_⟩
    intro node feature threshold left right counts hreach hnode hleft hright
    refine ⟨counts, ?_⟩
    rw [id, id, id, Int.toNat_of_nonneg hleft.1, Int.toNat_of_nonneg hright.1]
    exact hsame hreach hnode
  | unused lengths rows =>
    refine ⟨id, rfl, Function.injective_id, ?_, ?_⟩
    · intro node counts _ hnode
      obtain ⟨row, hrow, heq⟩ := node?_eq_some_iff.1 hnode
      obtain ⟨hleaf, hcounts⟩ := Row.node_eq_leaf_iff.1 heq
      obtain ⟨row', hrow', huse⟩ := rows node row hrow
      exact node?_eq_some_iff.2 ⟨row', hrow', Row.node_eq_leaf_iff.2
        ⟨huse.feature.trans hleaf, (huse.leaf hleaf).trans hcounts⟩⟩
    · intro node feature threshold left right counts _ hnode hleft hright
      obtain ⟨row, hrow, heq⟩ := node?_eq_some_iff.1 hnode
      obtain ⟨hsplit, rfl⟩ := Row.node_eq_split_iff.1 heq
      obtain ⟨⟨feature', threshold', left', right', counts'⟩, hrow', huse⟩ := rows node _ hrow
      obtain ⟨rfl, rfl, rfl⟩ := huse.split hsplit
      obtain rfl := huse.feature
      refine ⟨counts', node?_eq_some_iff.2 ⟨_, hrow', Row.node_eq_split_iff.2 ⟨hsplit, ?_⟩⟩⟩
      rw [id, id, Int.toNat_of_nonneg hleft.1, Int.toNat_of_nonneg hright.1]

section Compile

variable [Scalar α] {v : Vocabulary} {c : CompiledTree α}

/-- Arrays that compile have one length. -/
theorem oneLength_of_compile (h : t.compile v = .ok c) : t.OneLength := by
  obtain ⟨tree, hunfold, -⟩ := compile_eq_ok_iff.1 h
  exact shapeDefect?_eq_none_iff.1 (unfold_eq_ok_iff.1 hunfold).1

/-- One change of the layout leaves what the arrays compile to as it is. -/
theorem LayoutChange.compile (h : t.LayoutChange t') (hcompile : t.compile v = .ok c) :
    t'.compile v = .ok c := by
  obtain ⟨number, hcarries⟩ := h.exists_carries
  exact hcarries.compile (h.oneLength (oneLength_of_compile hcompile)) hcompile

/-- Node arrays compile to the same table after any number of changes of their layout. -/
theorem Relayout.compile (h : t.Relayout t') (hcompile : t.compile v = .ok c) :
    t'.compile v = .ok c := by
  induction h with
  | refl => exact hcompile
  | tail _ hchange ih => exact hchange.compile ih

end Compile

end FittedTree

/-! ## Artifacts -/

namespace Artifact

open FittedTree (Relayout)

/-- Trees whose layouts have been changed compile one by one to the same tables. -/
theorem forall₂_compile_of_relayout {α : Type} [Scalar α] {v : Vocabulary}
    {trees trees' : List (FittedTree α)} {compiled : List (CompiledTree α)}
    (h : List.Forall₂ Relayout trees trees')
    (hcompiled : List.Forall₂ (fun t c => t.compile v = .ok c) trees compiled) :
    List.Forall₂ (fun t c => t.compile v = .ok c) trees' compiled := by
  induction h generalizing compiled with
  | nil => exact hcompiled
  | cons hchange _ ih =>
    cases hcompiled with
    | cons htree hothers => exact .cons (hchange.compile htree) (ih hothers)

/-- A fitted tree that compiles does so to the same table after any number of changes of its layout.
So forests whose trees differ in their layout only have the same artifact, and with it the same text
and the same digest. -/
theorem compile_of_relayout (v : Vocabulary) :
    (∀ (t t' : FittedTree Float) (c : CompiledTree Float), t.Relayout t' →
      t.compile v = .ok c → t'.compile v = .ok c) ∧
    ∀ (f f' : Forest Float) (a : Artifact Float), List.Forall₂ Relayout f.trees f'.trees →
      compile f v = .ok a →
        ∃ a', compile f' v = .ok a' ∧ a'.canonical = a.canonical ∧ a'.digest = a.digest := by
  refine ⟨fun t t' c h => h.compile, fun f f' a hrelated hcompile => ⟨a, ?_, rfl, rfl⟩⟩
  obtain ⟨hnonempty, hnames, hproduced, hversion, hvocabulary, hcompiled⟩ :=
    compile_eq_ok_iff.1 hcompile
  refine compile_eq_ok_iff.2 ⟨?_, hnames, hproduced, hversion, hvocabulary, ?_⟩
  · intro hnil
    rw [hnil, List.forall₂_nil_right_iff] at hrelated
    exact hnonempty hrelated
  · exact forall₂_compile_of_relayout hrelated hcompiled

/-! ### A stump in four layouts -/

/-- A stump with its nodes in pre-order, any class counts at the split, and any thresholds and
children at the leaves. -/
def orderedStump (counts : ClassCounts Float) (unused : Float) (child : Int) :
    FittedTree Float where
  feature := #[0, -2, -2]
  threshold := #[0.5, unused, unused]
  childrenLeft := #[1, child, child]
  childrenRight := #[2, child, child]
  counts := #[counts, ⟨2.0, 0.0⟩, ⟨0.0, 2.0⟩]

/-- The same stump with a node behind it that nothing leads to. -/
def paddedStump (counts : ClassCounts Float) (unused : Float) (child : Int) :
    FittedTree Float where
  feature := #[0, -2, -2, 9]
  threshold := #[0.5, unused, unused, unused]
  childrenLeft := #[1, child, child, 7]
  childrenRight := #[2, child, child, 3]
  counts := #[counts, ⟨2.0, 0.0⟩, ⟨0.0, 2.0⟩, counts]

/-- A stump whose children stand in the other order has the layout of the stump in pre-order with
other counts, thresholds and children where they are not used and with one more node. -/
theorem relayout_stump (counts : ClassCounts Float) (unused : Float) (child : Int) :
    FittedTree.swappedStump.Relayout (paddedStump counts unused child) := by
  have hrenumbered :
      FittedTree.swappedStump.LayoutChange (orderedStump ⟨2.0, 2.0⟩ (-2.0) (-1)) := by
    refine .renumbered (Equiv.swap 1 2) rfl ⟨rfl, rfl, rfl, rfl, rfl⟩ ?_
    intro i row hrow
    have hi : i < 3 := FittedTree.lt_nodeCount_of_row? hrow
    interval_cases i <;> cases hrow <;> rfl
  have hunused : (orderedStump ⟨2.0, 2.0⟩ (-2.0) (-1)).LayoutChange
      (orderedStump counts unused child) := by
    refine .unused ⟨rfl, rfl, rfl, rfl, rfl⟩ ?_
    intro i row hrow
    have hi : i < 3 := FittedTree.lt_nodeCount_of_row? hrow
    interval_cases i
    · cases hrow
      exact ⟨_, rfl, ⟨rfl, fun h => absurd h (by decide), fun _ => ⟨rfl, rfl, rfl⟩⟩⟩
    · cases hrow
      exact ⟨_, rfl, ⟨rfl, fun _ => rfl, fun h => absurd rfl h⟩⟩
    · cases hrow
      exact ⟨_, rfl, ⟨rfl, fun _ => rfl, fun h => absurd rfl h⟩⟩
  have hpadded : (orderedStump counts unused child).LayoutChange
      (paddedStump counts unused child) := by
    refine .unreachable ⟨Nat.succ_pos 3, rfl, rfl, rfl, rfl⟩ ?_
    intro i hreach
    have hi : i < 3 := hreach.lt_nodeCount (Nat.succ_pos 2)
    interval_cases i <;> rfl
  exact ((Relation.ReflTransGen.single hrenumbered).tail hunused).tail hpadded

/-- A stump with its children swapped, and the same one with a node that nothing leads to. -/
theorem compile_of_relayout_stump :
    FittedTree.swappedStump.Relayout (paddedStump ⟨0.0, 7.0⟩ 3.0 8) ∧
      (∃ c, FittedTree.swappedStump.compile Scorer.oneNumber = .ok c ∧
        (paddedStump ⟨0.0, 7.0⟩ 3.0 8).compile Scorer.oneNumber = .ok c) ∧
      ∃ a, compile ⟨[FittedTree.swappedStump]⟩ Scorer.oneNumber = .ok a ∧
        ∃ a', compile ⟨[paddedStump ⟨0.0, 7.0⟩ 3.0 8]⟩ Scorer.oneNumber = .ok a' ∧
          a'.canonical = a.canonical ∧ a'.digest = a.digest := by
  have hrelayout := relayout_stump ⟨0.0, 7.0⟩ 3.0 8
  have hcompile : FittedTree.swappedStump.compile Scorer.oneNumber =
      .ok ⟨#[.split "Page Views" 0.5 1 2, .leaf (ClassCounts.rate ⟨2.0, 0.0⟩),
        .leaf (ClassCounts.rate ⟨0.0, 2.0⟩)]⟩ := by rfl
  have hartifact : compile ⟨[FittedTree.swappedStump]⟩ Scorer.oneNumber =
      .ok ⟨1, Scorer.oneNumber, [⟨#[.split "Page Views" 0.5 1 2,
        .leaf (ClassCounts.rate ⟨2.0, 0.0⟩), .leaf (ClassCounts.rate ⟨0.0, 2.0⟩)]⟩]⟩ := by rfl
  have hinvariant := compile_of_relayout Scorer.oneNumber
  have htable := hinvariant.1 _ _ _ hrelayout hcompile
  have hsame := hinvariant.2 ⟨[FittedTree.swappedStump]⟩ ⟨[paddedStump ⟨0.0, 7.0⟩ 3.0 8]⟩ _
    (.cons hrelayout .nil) hartifact
  exact ⟨hrelayout, ⟨_, hcompile, htable⟩, _, hartifact, hsame⟩

end Artifact

end LeadScoring
