import LeadScoring.Proofs.Forest.Growth
import LeadScoring.Proofs.Forest.Selection

/-!
# Building node arrays in place

A trainer does not lay a finished tree out.  It enters every node as a leaf as soon as it comes to
it, turns the entry into a test where it splits, and enters the numbers of the two children after
both of them have been built.  This module defines that construction, with the decreases and the
generator that go along, and proves that it builds the pre-order arrays of the tree that growth
returns.

Main results:

- Definition `Builder` with `Builder.enter`, `Builder.setTest` and `Builder.setChildren`: the state
  of the construction and its steps.
- Definition `TrainingTable.buildNode?`: the recursion over the nodes.
- Theorem `TrainingTable.buildNode?_eq`: what it returns from any arrays.
- Theorems `TrainingTable.buildInPlace?_eq`, `TrainingTable.exists_buildInPlace?`: from empty arrays
  it builds those of the grown tree.
-/

namespace LeadScoring

/-- The arrays of a tree under construction, the decreases of its splits summed up by feature, and
the generator. -/
structure Builder (α : Type) where
  arrays : FittedTree α
  decreases : Array α
  generator : Generator

namespace Builder

variable {α : Type} [Scalar α]

/-- No nodes, and no decrease of any feature. -/
def start (width : ℕ) (g : Generator) : Builder α where
  arrays := ⟨#[], #[], #[], #[], #[]⟩
  decreases := Array.replicate width 0
  generator := g

/-- The number of the next node. -/
def next (b : Builder α) : ℕ :=
  b.arrays.feature.size

/-- Enters a leaf behind all other nodes. -/
def enter (b : Builder α) (counts : ClassCounts α) : Builder α :=
  { b with
    arrays :=
      { feature := b.arrays.feature.push FittedTree.leafFeature
        threshold := b.arrays.threshold.push (0 - 2.0)
        childrenLeft := b.arrays.childrenLeft.push FittedTree.leafChild
        childrenRight := b.arrays.childrenRight.push FittedTree.leafChild
        counts := b.arrays.counts.push counts } }

/-- Makes a node test at a cut, and credits the feature with its gain. -/
def setTest (b : Builder α) (node : ℕ) (cut : Cut α) : Builder α :=
  { b with
    arrays :=
      { b.arrays with
        feature := b.arrays.feature.setIfInBounds node cut.feature
        threshold := b.arrays.threshold.setIfInBounds node cut.threshold }
    decreases := b.decreases.modify cut.feature (· + cut.gain) }

/-- Enters the numbers of the children of a node. -/
def setChildren (b : Builder α) (node left right : ℕ) : Builder α :=
  { b with
    arrays :=
      { b.arrays with
        childrenLeft := b.arrays.childrenLeft.setIfInBounds node left
        childrenRight := b.arrays.childrenRight.setIfInBounds node right } }

end Builder

/-! ## Arrays as rows -/

section Rows

open FittedTree (Row)

variable {α : Type}

/-- The arrays with the entries of some rows. -/
def FittedTree.ofRows (rows : List (Row α)) : FittedTree α where
  feature := rows.toArray.map (·.feature)
  threshold := rows.toArray.map (·.threshold)
  childrenLeft := rows.toArray.map (·.left)
  childrenRight := rows.toArray.map (·.right)
  counts := rows.toArray.map (·.counts)

namespace Builder

variable [Scalar α] {before behind : List (Row α)} {row : Row α} {decreases : Array α}
  {g : Generator}

omit [Scalar α] in
theorem next_ofRows : (⟨.ofRows before, decreases, g⟩ : Builder α).next = before.length := by
  simp [next, FittedTree.ofRows]

/-- A node is entered as the leaf that it stays if it is not split. -/
theorem enter_ofRows (counts : ClassCounts α) :
    (⟨.ofRows before, decreases, g⟩ : Builder α).enter counts =
      ⟨.ofRows (before ++ FittedTree.rowsOf before.length (.leaf counts)), decreases, g⟩ := by
  simp [enter, FittedTree.ofRows, FittedTree.rowsOf]

/-- A test is entered into the row of its node, whatever stands behind it. -/
theorem setTest_ofRows (cut : Cut α) :
    (⟨.ofRows (before ++ row :: behind), decreases, g⟩ : Builder α).setTest before.length cut =
      ⟨.ofRows (before ++
          { row with feature := cut.feature, threshold := cut.threshold } :: behind),
        decreases.modify cut.feature (· + cut.gain), g⟩ := by
  simp [setTest, FittedTree.ofRows]

/-- With the numbers of its children the entry of a split is complete, and the rows from there on
are those of the tree. -/
theorem setChildren_ofRows (feature : ℕ) (threshold : α) (counts : ClassCounts α)
    (left right : DecisionTree α) :
    (⟨.ofRows (before ++
          [⟨feature, threshold, FittedTree.leafChild, FittedTree.leafChild, counts⟩] ++
        FittedTree.rowsOf (before.length + 1) left ++
        FittedTree.rowsOf (before.length + 1 + left.size) right), decreases, g⟩ :
        Builder α).setChildren before.length (before.length + 1) (before.length + 1 + left.size) =
      ⟨.ofRows (before ++
        FittedTree.rowsOf before.length (.split feature threshold counts left right)),
        decreases, g⟩ := by
  simp [setChildren, FittedTree.ofRows, FittedTree.rowsOf]

end Builder

end Rows

namespace TrainingTable

variable {α : Type} [Scalar α]

/-- Builds the node of some rows and everything below it, and returns its number.  Nothing is
returned if the tree would become deeper than the bound. -/
def buildNode? (t : TrainingTable α) (config : TreeConfig) :
    ℕ → ℕ → List ℕ → Builder α → Option (ℕ × Builder α)
  | bound, depth, rows, b =>
    let current := b.next
    let counts := t.countsOf rows
    let b := b.enter counts
    if isFinal config depth rows.length counts then some (current, b)
    else
      match t.bestCut? config rows counts b.generator with
      | (none, g) => some (current, { b with generator := g })
      | (some cut, g) =>
        match bound with
        | 0 => none
        | bound + 1 =>
          let b := { b with generator := g }.setTest current cut
          match t.buildNode? config bound (depth + 1) (rows.filter (t.goesLeft cut)) b with
          | none => none
          | some (left, b) =>
            match t.buildNode? config bound (depth + 1)
                (rows.filter fun row => !t.goesLeft cut row) b with
            | none => none
            | some (right, b) => some (current, b.setChildren current left right)

/-- Builds a tree from empty arrays: its arrays, the decreases and the generator afterwards. -/
def buildInPlace? (t : TrainingTable α) (config : TreeConfig) (g : Generator) :
    Option (FittedTree α × Array α × Generator) :=
  (t.buildNode? config (depthBound config t.labels.size) 0 t.weightedRows (.start t.width g)).map
    fun (_, b) => (b.arrays, b.decreases, b.generator)

/-! ## What is built -/

section Built

open FittedTree (Row)

variable (t : TrainingTable α) (config : TreeConfig)

/-- Credits added to the sums of the features. -/
def addCredits (sums : Array α) (credits : List (ℕ × α)) : Array α :=
  credits.foldl (fun sums (feature, gain) => sums.modify feature (· + gain)) sums

omit [Scalar α] in
theorem length_entered (before : List (Row α)) (row : Row α) :
    (before ++ [row]).length = before.length + 1 :=
  List.length_append

/-- The number of the right child, once the left one has been built. -/
theorem length_built (before : List (Row α)) (row : Row α) (left : DecisionTree α) :
    (before ++ [row] ++ FittedTree.rowsOf (before.length + 1) left).length =
      before.length + 1 + left.size := by
  rw [List.length_append, length_entered, FittedTree.length_rowsOf]

/-- The node of some rows is built behind all nodes so far, as the pre-order of the tree that growth
returns.  The credits are added in the order of the nodes, and the generator is that of growth. -/
theorem buildNode?_eq (bound depth : ℕ) (rows : List ℕ) (before : List (Row α))
    (decreases : Array α) (g : Generator) :
    t.buildNode? config bound depth rows ⟨.ofRows before, decreases, g⟩ =
      (t.growFrom? config bound depth rows g).map fun (grown, after) =>
        (before.length, ⟨.ofRows (before ++ FittedTree.rowsOf before.length grown.tree),
          addCredits decreases grown.credits, after⟩) := by
  induction bound using Nat.strong_induction_on generalizing depth rows before decreases g with
  | _ bound ih =>
    -- Both recursions take the same steps, and the arrays hold the rows of everything built so far.
    unfold buildNode? growFrom?
    dsimp only
    rw [Builder.next_ofRows, Builder.enter_ofRows]
    split_ifs with hfinal
    · rfl
    · dsimp only
      rcases hcut : t.bestCut? config rows (t.countsOf rows) g with ⟨_ | cut, between⟩
      · rfl
      · dsimp only
        cases bound with
        | zero => rfl
        | succ less =>
          dsimp only
          rw [FittedTree.rowsOf, Builder.setTest_ofRows, ih less (Nat.lt_succ_self less)]
          cases hleft : t.growFrom? config less (depth + 1)
              (rows.filter (t.goesLeft cut)) between with
          | none => rfl
          | some result =>
            rcases result with ⟨left, afterLeft⟩
            rw [Option.map_some]
            dsimp only
            rw [ih less (Nat.lt_succ_self less)]
            cases hright : t.growFrom? config less (depth + 1)
                (rows.filter fun row => !t.goesLeft cut row) afterLeft with
            | none => rfl
            | some result =>
              rcases result with ⟨right, afterRight⟩
              rw [Option.map_some, Option.map_some]
              dsimp only
              rw [length_entered, length_built, Builder.setChildren_ofRows, addCredits, addCredits,
                addCredits, List.foldl_cons, List.foldl_append]

/-- Building in place from empty arrays returns what growing a tree and laying it out returns. -/
theorem buildInPlace?_eq (g : Generator) : t.buildInPlace? config g = t.build? config g := by
  have hstart : (.start t.width g : Builder α) = ⟨.ofRows [], Array.replicate t.width 0, g⟩ := by
    simp [Builder.start, FittedTree.ofRows]
  rw [buildInPlace?, hstart, buildNode?_eq, Option.map_map, build?, grow?]
  rfl

end Built

/-- Arrays are built in place from every table of finite features.  Their nodes are numbered in
pre-order and keep the limits of the configuration, and each has the counts of the rows whose
decision path passes it. -/
theorem exists_buildInPlace? {t : TrainingTable Float} (hfinite : t.HasFiniteFeatures)
    (config : TreeConfig) (g : Generator) :
    ∃ tree decreases after, t.buildInPlace? config g = some (tree, decreases, after) ∧
      t.CountsPaths tree ∧ t.KeepsLimits config tree := by
  rcases exists_grow? hfinite config g with ⟨grown, after, hgrow⟩
  have hsorts : t.Sorts t.weightedRows grown.tree := sorts_of_growFrom? hgrow
  have hgrows : t.Grows config 0 t.weightedRows grown.tree := ⟨_, _, _, _, hgrow, rfl⟩
  refine ⟨.ofTree grown.tree, grown.decreases t.width, after, ?_, hsorts.countsPaths,
    hgrows.keepsLimits hfinite (size_of_growFrom? hfinite.cutsApart hgrow)⟩
  rw [buildInPlace?_eq, build?, hgrow]
  rfl

end TrainingTable

end LeadScoring
