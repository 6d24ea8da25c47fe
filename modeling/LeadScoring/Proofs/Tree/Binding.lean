import LeadScoring.Proofs.Outcome
import LeadScoring.Proofs.Scalar.Share
import LeadScoring.Proofs.Tree.Unfolding
import LeadScoring.Proofs.Vocabulary.Encoding
import LeadScoring.Scorer

/-!
# Binding compiled trees

A scorer binds the table of a compiled tree and walks it by positions.  This module shows that the
table of a well-formed tree passes every check of binding, and that a walk over the bound table
follows the tree to the same leaf.

Main results:

- Definition `BoundTree.nodesOf`: the bound table of a tree.
- Theorem `BoundTree.bind_ofTree`: binding the compiled table of a tree gives its bound table.
- Definition `BoundTree.visited`: the positions that a walk visits, with
  `BoundTree.walk_eq_some_iff`.
- Theorems `BoundTree.evaluate_ofTree`, `BoundTree.visited_ofTree`: walks over the bound table of a
  tree.
-/

namespace LeadScoring

variable {α : Type}

/-! ## Tables of a tree -/

namespace CompiledTree

variable [Scalar α]

theorem length_nodesOf (nameOf : Nat → String) (slot : Nat) (tree : DecisionTree α) :
    (nodesOf nameOf slot tree).length = tree.size := by
  induction tree generalizing slot with
  | leaf counts => rfl
  | split feature threshold counts left right ihl ihr =>
    simp only [nodesOf, List.length_cons, List.length_append, ihl, ihr, DecisionTree.size]
    omega

/-- The compiled table of a tree has one node for each of its nodes. -/
theorem nodeCount_ofTree (nameOf : Nat → String) (tree : DecisionTree α) :
    (ofTree nameOf tree).nodeCount = tree.size := by
  simp [nodeCount, ofTree, length_nodesOf]

end CompiledTree

namespace BoundTree

variable [Scalar α]

/-- The bound nodes of a tree in pre-order, its root standing at the given position. -/
def nodesOf (slot : Nat) : DecisionTree α → List (BoundNode α)
  | .leaf counts => [.leaf counts.rate]
  | .split feature threshold _ left right =>
    .split feature threshold (slot + 1) (slot + 1 + left.size) ::
      (nodesOf (slot + 1) left ++ nodesOf (slot + 1 + left.size) right)

/-- The bound table of a tree. -/
def ofTree (tree : DecisionTree α) : BoundTree α :=
  ⟨(nodesOf 0 tree).toArray⟩

theorem length_nodesOf (slot : Nat) (tree : DecisionTree α) :
    (nodesOf slot tree).length = tree.size := by
  induction tree generalizing slot with
  | leaf counts => rfl
  | split feature threshold counts left right ihl ihr =>
    simp only [nodesOf, List.length_cons, List.length_append, ihl, ihr, DecisionTree.size]
    omega

/-! ## Binding -/

/-- Nodes that bind one after the other bind together. -/
theorem bindNodes_append {v : Vocabulary} {k count first : Nat} {xs ys : List (CompiledNode α)}
    {bxs bys : List (BoundNode α)} (hxs : bindNodes v k count first xs = .ok bxs)
    (hys : bindNodes v k count (first + xs.length) ys = .ok bys) :
    bindNodes v k count first (xs ++ ys) = .ok (bxs ++ bys) := by
  induction xs generalizing first bxs with
  | nil =>
    cases hxs
    exact hys
  | cons x xs ih =>
    rw [bindNodes, Outcome.bind_eq_ok_iff] at hxs
    obtain ⟨bx, hx, hrest⟩ := hxs
    rw [Outcome.bind_eq_ok_iff] at hrest
    obtain ⟨bxs, hxs, hpure⟩ := hrest
    cases hpure
    rw [List.length_cons, Nat.add_comm xs.length 1, ← Nat.add_assoc] at hys
    rw [List.cons_append, bindNodes, hx]
    change (bindNodes v k count (first + 1) (xs ++ ys) >>= fun others => pure (bx :: others)) = _
    rw [ih hxs hys]
    rfl

omit [Scalar α] in
/-- A child with a number that fits a slot is bound to that number. -/
theorem bindChild_ofNat {k count node child : Nat} (hchild : child < count)
    (hcount : count ≤ 2 ^ 32) :
    (bindChild k count node (UInt32.ofNat child) : Except (ScoringFailure α) Nat) = .ok child := by
  have hchild' : (UInt32.ofNat child).toNat = child := by
    rw [UInt32.toNat_ofNat']
    omega
  rw [bindChild, hchild', if_pos hchild]

/-- The compiled table of a well-formed tree passes every check of binding, as long as its
positions fit into child entries. -/
theorem bindNodes_nodesOf [SharesInUnit α] {v : Vocabulary} {k count : Nat} {tree : DecisionTree α}
    (hcount : count ≤ 2 ^ 32) :
    ∀ {slot : Nat}, tree.WellFormed v.size → slot + tree.size ≤ count →
      bindNodes v k count slot
        (CompiledTree.nodesOf (fun i => (v.name? i).getD "") slot tree) =
          .ok (nodesOf slot tree) := by
  induction tree with
  | leaf counts =>
    intro slot hformed _
    have hrate := SharesInUnit.rate_mem_unit counts hformed
    simp only [CompiledTree.nodesOf, bindNodes, bindNode, if_pos hrate]
    rfl
  | split feature threshold counts left right ihl ihr =>
    intro slot hformed hfits
    obtain ⟨hfeature, hfinite, hleft, hright⟩ := hformed
    simp only [DecisionTree.size] at hfits
    have hsize := right.size_pos
    obtain ⟨name, hname⟩ := Vocabulary.isSome_name? hfeature
    have hroot : bindNode v k count slot
        (.split ((v.name? feature).getD "") threshold (UInt32.ofNat (slot + 1))
          (UInt32.ofNat (slot + 1 + left.size))) =
        (.ok (.split feature threshold (slot + 1) (slot + 1 + left.size)) :
          Except (ScoringFailure α) (BoundNode α)) := by
      rw [hname, Option.getD_some, bindNode, Vocabulary.indexOf?_of_name? hname, hfinite,
        bindChild_ofNat (by omega) hcount, bindChild_ofNat (by omega) hcount]
      rfl
    have hleftFits : slot + 1 + left.size ≤ count := by omega
    have hparts := bindNodes_append (ihl hleft hleftFits)
      (by
        rw [CompiledTree.length_nodesOf]
        exact ihr hright (by omega))
    rw [CompiledTree.nodesOf, bindNodes, hroot]
    change (bindNodes v k count (slot + 1) _ >>= fun others => pure (_ :: others)) = _
    rw [hparts]
    rfl

/-- Binding the compiled table of a well-formed tree gives its bound table. -/
theorem bind_ofTree [SharesInUnit α] {v : Vocabulary} {k : Nat} {tree : DecisionTree α}
    (hformed : tree.WellFormed v.size) (hsize : tree.size ≤ 2 ^ 32) :
    bind v k (CompiledTree.ofTree (fun i => (v.name? i).getD "") tree) = .ok (ofTree tree) := by
  have hpos := tree.size_pos
  have hnonempty :
      (CompiledTree.ofTree (fun i => (v.name? i).getD "") tree).nodes.isEmpty = false := by
    rw [Array.isEmpty_eq_false_iff, ← Array.size_pos_iff]
    simpa [CompiledTree.ofTree, CompiledTree.length_nodesOf] using hpos
  have hfits : 0 + tree.size ≤ tree.size := by omega
  have hnodes := bindNodes_nodesOf (k := k) (v := v) hsize hformed hfits
  rw [bind, hnonempty, CompiledTree.nodeCount_ofTree]
  change (bindNodes v k tree.size 0 _ >>= fun nodes => pure _) = _
  rw [CompiledTree.ofTree, hnodes]
  rfl

/-! ## Walks -/

/-- The positions that a walk visits from a node within a number of steps. -/
def visitedFrom (t : BoundTree α) (values : Array α) : Nat → Nat → List Nat
  | 0, _ => []
  | steps + 1, i =>
    match t.nodes[i]? with
    | none => []
    | some (.leaf _) => [i]
    | some (.split feature threshold left right) =>
      i ::
        if DecisionTree.valueAt values feature ≤ threshold then t.visitedFrom values steps left
        else t.visitedFrom values steps right

/-- The positions that an evaluation visits. -/
def visited (t : BoundTree α) (values : Array α) : List Nat :=
  t.visitedFrom values t.nodes.size 0

/-- A walk answers with the probability of a leaf exactly if that leaf is the last node it
visits. -/
theorem walk_eq_some_iff {t : BoundTree α} {values : Array α} {steps i : Nat} {p : α} :
    t.walk values steps i = some p ↔
      ∃ slot, (t.visitedFrom values steps i).getLast? = some slot ∧
        t.nodes[slot]? = some (.leaf p) := by
  induction steps generalizing i with
  | zero => simp [walk, visitedFrom]
  | succ steps ih =>
    cases hnode : t.nodes[i]? with
    | none => simp [walk, visitedFrom, hnode]
    | some node =>
      cases node with
      | leaf q => simp [walk, visitedFrom, hnode]
      | split feature threshold left right =>
        -- A walk that stops at a split has no answer.
        have hcons : ∀ next,
            (∃ slot, (i :: t.visitedFrom values steps next).getLast? = some slot ∧
              t.nodes[slot]? = some (.leaf p)) ↔
            ∃ slot, (t.visitedFrom values steps next).getLast? = some slot ∧
              t.nodes[slot]? = some (.leaf p) := by
          intro next
          cases t.visitedFrom values steps next with
          | nil => simp [hnode]
          | cons => simp [List.getLast?_cons_cons]
        simp only [walk, visitedFrom, hnode]
        by_cases hle : DecisionTree.valueAt values feature ≤ threshold
        · simp only [hle, if_true]
          rw [ih, hcons]
        · simp only [hle, if_false]
          rw [ih, hcons]

/-- Where the bound nodes of a tree stand in a table, a walk from the root reaches the same leaf as
the tree and visits the positions that the tree visits. -/
theorem walk_nodesOf {t : BoundTree α} (values : Array α) :
    ∀ {tree : DecisionTree α} {steps slot : Nat}, tree.depth < steps →
      StandsAt (nodesOf slot tree) t.nodes.toList slot →
        t.walk values steps slot = some (tree.predict values) ∧
          t.visitedFrom values steps slot = tree.visits values slot := by
  intro tree
  induction tree with
  | leaf counts =>
    intro steps slot hsteps hstands
    obtain ⟨steps, rfl⟩ : ∃ k, steps = k + 1 := ⟨steps - 1, by omega⟩
    have hroot : t.nodes[slot]? = some (.leaf counts.rate) := by
      rw [← Array.getElem?_toList]
      exact hstands.head
    simp [walk, visitedFrom, hroot, DecisionTree.predict, DecisionTree.visits]
  | split feature threshold counts left right ihl ihr =>
    intro steps slot hsteps hstands
    obtain ⟨steps, rfl⟩ : ∃ k, steps = k + 1 := ⟨steps - 1, by omega⟩
    simp only [DecisionTree.depth] at hsteps
    have hroot := hstands.head
    rw [Array.getElem?_toList] at hroot
    have hright := hstands.right
    rw [length_nodesOf] at hright
    have hleftDepth : left.depth < steps := by omega
    have hrightDepth : right.depth < steps := by omega
    obtain ⟨hwalkl, hvisitl⟩ := ihl hleftDepth hstands.left
    obtain ⟨hwalkr, hvisitr⟩ := ihr hrightDepth hright
    simp only [walk, visitedFrom, hroot, DecisionTree.predict, DecisionTree.visits]
    by_cases hle : DecisionTree.valueAt values feature ≤ threshold
    · simp only [hle, if_true]
      exact ⟨hwalkl, by rw [hvisitl]⟩
    · simp only [hle, if_false]
      exact ⟨hwalkr, by rw [hvisitr]⟩

section Whole

variable (tree : DecisionTree α) (values : Array α)

/-- The walk over a laid-out tree predicts and visits what the tree does. -/
theorem walk_ofTree :
    (ofTree tree).evaluate values = some (tree.predict values) ∧
      (ofTree tree).visited values = tree.visits values 0 := by
  refine walk_nodesOf values ?_ (StandsAt.whole _)
  rw [ofTree, List.size_toArray, length_nodesOf]
  exact tree.depth_lt_size

/-- The bound table of a tree answers with the prediction of the tree. -/
theorem evaluate_ofTree : (ofTree tree).evaluate values = some (tree.predict values) :=
  (walk_ofTree tree values).1

/-- A walk over the bound table of a tree visits the positions that the tree visits. -/
theorem visited_ofTree : (ofTree tree).visited values = tree.visits values 0 :=
  (walk_ofTree tree values).2

end Whole

end BoundTree

end LeadScoring
