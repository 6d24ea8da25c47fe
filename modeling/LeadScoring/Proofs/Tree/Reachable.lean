import LeadScoring.Proofs.Tree.Unfolding

/-!
# Reachable nodes

Unfolding looks at a node only if child entries lead there from node zero.  This module takes one
step of unfolding apart into the checks of a single node and the two parts below it, and shows that
nodes to which nothing leads play no part.

Main results:

- Definition `FittedTree.inspect`: the checks of one node, with `FittedTree.unfoldFrom_succ`.
- Theorems `FittedTree.unfoldFrom_ok_cases`, `FittedTree.unfoldFrom_error_cases`: what a step of
  unfolding can do.
- Definition `FittedTree.OneLength`: the lengths that compiling asks for.
- Definition `FittedTree.Reaches`: the nodes that child entries lead to from node zero.
- Theorem `FittedTree.compile_congr`: node arrays of the same lengths with the same entries at
  reachable nodes compile alike.
-/

namespace LeadScoring

/-- A node whose entries have passed their checks; its children are node numbers. -/
inductive SoundNode (α : Type) where
  | leaf (counts : ClassCounts α)
  | split (feature : Nat) (threshold : α) (left right : Nat) (counts : ClassCounts α)

namespace FittedTree

variable {α : Type}

/-! ## Checks of one node -/

/-- A child entry passes its check exactly if it lies inside the arrays. -/
theorem child_eq_ok_iff {t : FittedTree α} {node k : Nat} {i : Int} :
    t.child node i = .ok k ↔ (0 ≤ i ∧ i < t.nodeCount) ∧ k = i.toNat := by
  unfold child
  split_ifs with h <;> simp [h, eq_comm]

section Inspection

variable [Scalar α]

/-- The checks of one node, without those of the nodes below it. -/
def inspect (t : FittedTree α) (width node : Nat) : Except TreeDefect (SoundNode α) :=
  match t.node? node with
  | none => .error .empty
  | some (.leaf counts) =>
    if counts.isValid then .ok (.leaf counts) else .error (.invalidCounts node)
  | some (.split feature threshold left right counts) => do
    if feature < 0 ∨ (width : Int) ≤ feature then
      throw (.unknownFeature node feature)
    if !Scalar.isFinite threshold then
      throw (.nonFiniteThreshold node)
    let left ← t.child node left
    let right ← t.child node right
    return .split feature.toNat threshold left right counts

/-- A step of unfolding checks the node and then unfolds the parts below it. -/
theorem unfoldFrom_succ (t : FittedTree α) (width bound : Nat) (seen : List Nat) (node : Nat) :
    t.unfoldFrom width (bound + 1) seen node =
      if seen.contains node then .error (.cycle node)
      else
        match t.inspect width node with
        | .error defect => .error defect
        | .ok (.leaf counts) => .ok (.leaf counts, node :: seen)
        | .ok (.split feature threshold left right counts) => do
          let (left, seen) ← t.unfoldFrom width bound (node :: seen) left
          let (right, seen) ← t.unfoldFrom width bound seen right
          return (.split feature threshold counts left right, seen) := by
  rw [unfoldFrom]
  split_ifs with hseen
  · rfl
  · cases hentry : t.node? node with
    | none => simp [inspect, hentry]
    | some entry =>
      cases entry with
      | leaf counts =>
        by_cases hvalid : counts.isValid = true <;> simp [inspect, hentry, hvalid]
      | split feature threshold left right counts =>
        simp only [inspect, hentry]
        by_cases hfeature : feature < 0 ∨ (width : Int) ≤ feature
        · simp only [if_pos hfeature]
          rfl
        · simp only [if_neg hfeature]
          by_cases hfinite : (!Scalar.isFinite threshold) = true
          · simp only [if_pos hfinite]
            rfl
          · simp only [if_neg hfinite]
            cases t.child node left with
            | error defect => rfl
            | ok l => cases t.child node right <;> rfl

/-- The entries of an inspected split: its children lie inside the arrays. -/
theorem entry_of_inspect {t : FittedTree α} {width node feature left right : Nat} {threshold : α}
    {counts : ClassCounts α}
    (h : t.inspect width node = .ok (.split feature threshold left right counts)) :
    ∃ index l r : Int, t.node? node = some (.split index threshold l r counts) ∧
      (0 ≤ l ∧ l < t.nodeCount) ∧ (0 ≤ r ∧ r < t.nodeCount) ∧ left = l.toNat ∧
        right = r.toNat := by
  unfold inspect at h
  split at h
  · cases h
  · split_ifs at h
    cases h
  · rename_i entry
    simp only [Outcome.guard_eq_ok_iff, Outcome.bind_eq_ok_iff, Outcome.pure_eq_ok_iff,
      child_eq_ok_iff] at h
    obtain ⟨-, -, _, ⟨hleft, rfl⟩, _, ⟨hright, rfl⟩, heq⟩ := h
    cases heq
    exact ⟨_, _, _, entry, hleft, hright, rfl, rfl⟩

section Cases

variable {t : FittedTree α} {width bound node : Nat} {seen after : List Nat}
  {tree : DecisionTree α} {defect : TreeDefect}

/-- Unfolding succeeds at a new node that is a leaf, or a split with two parts that unfold one after
the other. -/
theorem unfoldFrom_ok_cases (h : t.unfoldFrom width (bound + 1) seen node = .ok (tree, after)) :
    node ∉ seen ∧
      ((∃ counts, t.inspect width node = .ok (.leaf counts) ∧ tree = .leaf counts ∧
          after = node :: seen) ∨
        ∃ feature threshold left right counts leftTree rightTree between,
          t.inspect width node = .ok (.split feature threshold left right counts) ∧
            t.unfoldFrom width bound (node :: seen) left = .ok (leftTree, between) ∧
              t.unfoldFrom width bound between right = .ok (rightTree, after) ∧
                tree = .split feature threshold counts leftTree rightTree) := by
  rw [unfoldFrom_succ] at h
  split_ifs at h with hseen
  refine ⟨by simpa using hseen, ?_⟩
  split at h
  · cases h
  · rename_i counts hinspect
    cases h
    exact Or.inl ⟨counts, hinspect, rfl, rfl⟩
  · rename_i feature threshold left right counts hinspect
    simp only [Outcome.bind_eq_ok_iff, Outcome.pure_eq_ok_iff, Prod.exists] at h
    obtain ⟨leftTree, between, hleft, rightTree, last, hright, heq⟩ := h
    cases heq
    exact Or.inr ⟨feature, threshold, left, right, counts, leftTree, rightTree, between, hinspect,
      hleft, hright, rfl⟩

/-- Unfolding fails at a node met before, at a new one that fails its checks, or in one of the parts
below a split. -/
theorem unfoldFrom_error_cases (h : t.unfoldFrom width (bound + 1) seen node = .error defect) :
    (node ∈ seen ∧ defect = .cycle node) ∨
      (node ∉ seen ∧
        (t.inspect width node = .error defect ∨
          ∃ feature threshold left right counts,
            t.inspect width node = .ok (.split feature threshold left right counts) ∧
              (t.unfoldFrom width bound (node :: seen) left = .error defect ∨
                ∃ leftTree between,
                  t.unfoldFrom width bound (node :: seen) left = .ok (leftTree, between) ∧
                    t.unfoldFrom width bound between right = .error defect))) := by
  rw [unfoldFrom_succ] at h
  split_ifs at h with hseen
  · cases h
    exact Or.inl ⟨by simpa using hseen, rfl⟩
  · refine Or.inr ⟨by simpa using hseen, ?_⟩
    split at h
    · rename_i own hinspect
      cases h
      exact Or.inl hinspect
    · cases h
    · rename_i feature threshold left right counts hinspect
      refine Or.inr ⟨feature, threshold, left, right, counts, hinspect, ?_⟩
      rcases Outcome.bind_eq_error_iff.1 h with hleft | ⟨⟨leftTree, between⟩, hleft, hrest⟩
      · exact Or.inl hleft
      · rcases Outcome.bind_eq_error_iff.1 hrest with hright | ⟨part, -, hlast⟩
        · exact Or.inr ⟨leftTree, between, hleft, hright⟩
        · cases hlast

end Cases

end Inspection

/-! ## Lengths -/

/-- The five arrays hold at least one node, and all of them equally many. -/
structure OneLength (t : FittedTree α) : Prop where
  nonempty : 0 < t.feature.size
  threshold : t.threshold.size = t.feature.size
  childrenLeft : t.childrenLeft.size = t.feature.size
  childrenRight : t.childrenRight.size = t.feature.size
  counts : t.counts.size = t.feature.size

/-- The shape has no defect exactly if the arrays have one length. -/
theorem shapeDefect?_eq_none_iff {t : FittedTree α} : t.shapeDefect? = none ↔ t.OneLength := by
  unfold shapeDefect? nodeCount
  dsimp only
  constructor
  · intro h
    split_ifs at h with hempty hthreshold hleft hright hcounts
    exact ⟨by omega, by omega, by omega, by omega, by omega⟩
  · rintro ⟨hnonempty, hthreshold, hleft, hright, hcounts⟩
    simp [hthreshold, hleft, hright, hcounts, Nat.ne_of_gt hnonempty]

/-- The arrays are as long as other ones, each compared with its counterpart. -/
structure SameLengths (t t' : FittedTree α) : Prop where
  feature : t'.feature.size = t.feature.size
  threshold : t'.threshold.size = t.threshold.size
  childrenLeft : t'.childrenLeft.size = t.childrenLeft.size
  childrenRight : t'.childrenRight.size = t.childrenRight.size
  counts : t'.counts.size = t.counts.size

/-! ## Nodes that child entries lead to -/

/-- The nodes to which child entries inside the arrays lead from node zero. -/
inductive Reaches (t : FittedTree α) : Nat → Prop
  | root : Reaches t 0
  | left {node : Nat} {feature left right : Int} {threshold : α} {counts : ClassCounts α}
      (above : Reaches t node)
      (entry : t.node? node = some (.split feature threshold left right counts))
      (inside : 0 ≤ left ∧ left < t.nodeCount) : Reaches t left.toNat
  | right {node : Nat} {feature left right : Int} {threshold : α} {counts : ClassCounts α}
      (above : Reaches t node)
      (entry : t.node? node = some (.split feature threshold left right counts))
      (inside : 0 ≤ right ∧ right < t.nodeCount) : Reaches t right.toNat

/-- Reachable nodes lie inside arrays that have any. -/
theorem Reaches.lt_nodeCount {t : FittedTree α} {i : Nat} (h : t.Reaches i)
    (hpos : 0 < t.nodeCount) : i < t.nodeCount := by
  cases h with
  | root => exact hpos
  | left above entry inside => omega
  | right above entry inside => omega

/-- The nodes of a tree described below a reachable node are reachable. -/
theorem Describes.reaches {t : FittedTree α} {node : Nat} {tree : DecisionTree α}
    {nodes : List Nat} (h : t.Describes node tree nodes) (hnode : t.Reaches node) :
    ∀ i ∈ nodes, t.Reaches i := by
  induction h with
  | leaf entry => simpa using hnode
  | split entry feature_nonneg left_nonneg right_nonneg leftPart rightPart ihl ihr =>
    obtain ⟨leftEntry, hleft⟩ := leftPart.exists_entry leftPart.node_mem
    obtain ⟨rightEntry, hright⟩ := rightPart.exists_entry rightPart.node_mem
    have hleft_lt := lt_nodeCount_of_node? hleft
    have hright_lt := lt_nodeCount_of_node? hright
    intro i hi
    simp only [List.mem_cons, List.mem_append] at hi
    rcases hi with rfl | hi | hi
    · exact hnode
    · exact ihl (hnode.left entry ⟨left_nonneg, by omega⟩) i hi
    · exact ihr (hnode.right entry ⟨right_nonneg, by omega⟩) i hi

variable [Scalar α] {t t' : FittedTree α} {width : Nat}

/-- The children of an inspected node are reachable. -/
theorem Reaches.children {node feature left right : Nat} {threshold : α} {counts : ClassCounts α}
    (h : t.Reaches node)
    (hinspect : t.inspect width node = .ok (.split feature threshold left right counts)) :
    t.Reaches left ∧ t.Reaches right := by
  obtain ⟨_, _, _, entry, hleft, hright, rfl, rfl⟩ := entry_of_inspect hinspect
  exact ⟨h.left entry hleft, h.right entry hright⟩

/-! ## Nodes that nothing leads to -/

/-- What is found at a node depends on its entry and the number of nodes only. -/
theorem inspect_congr {node : Nat} (hcount : t'.nodeCount = t.nodeCount)
    (hentry : t'.node? node = t.node? node) : t'.inspect width node = t.inspect width node := by
  have hchild : t'.child node = t.child node := by
    funext i
    rw [child, child, hcount]
  rw [inspect, inspect, hentry, hchild]

/-- Unfolding from a reachable node looks at reachable nodes only. -/
theorem unfoldFrom_congr (hcount : t'.nodeCount = t.nodeCount)
    (hentry : ∀ i, t.Reaches i → t'.node? i = t.node? i) {bound node : Nat} {seen : List Nat}
    (hnode : t.Reaches node) :
    t'.unfoldFrom width bound seen node = t.unfoldFrom width bound seen node := by
  induction bound generalizing node seen with
  | zero => rfl
  | succ bound ih =>
    rw [unfoldFrom_succ, unfoldFrom_succ, inspect_congr hcount (hentry node hnode)]
    cases hinspect : t.inspect width node with
    | error defect => rfl
    | ok sound =>
      cases sound with
      | leaf counts => rfl
      | split feature threshold left right counts =>
        obtain ⟨hleft, hright⟩ := hnode.children hinspect
        simp only [ih hleft, ih hright]

/-- Node arrays of the same lengths with the same entries at reachable nodes compile alike. -/
theorem compile_congr (hlengths : t.SameLengths t')
    (hentry : ∀ i, t.Reaches i → t'.node? i = t.node? i) (v : Vocabulary) :
    t'.compile v = t.compile v := by
  have hcount : t'.nodeCount = t.nodeCount := hlengths.feature
  have hshape : t'.shapeDefect? = t.shapeDefect? := by
    simp only [shapeDefect?, hcount, hlengths.threshold, hlengths.childrenLeft,
      hlengths.childrenRight, hlengths.counts]
  rw [compile, compile, unfold, unfold, hshape, hcount, unfoldFrom_congr hcount hentry .root]

end FittedTree

end LeadScoring
