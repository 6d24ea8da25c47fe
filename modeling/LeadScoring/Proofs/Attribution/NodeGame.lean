import LeadScoring.Proofs.Attribution.Credits

/-!
# Games of node arrays

The game of a fitted tree is read off its node arrays, from the root on: a present feature sends the
vector to its own side of a split, an absent one sends it to both children, weighted by the rows
that each of them covers.  Node arrays that unfold to a tree have the game of that tree.

Main results:

- Definitions `FittedTree.coalitionValue` and `FittedTree.expectedValue`: the game, and the expected
  answer without any feature.
- Theorems `FittedTree.coalitionValue_of_unfold`, `FittedTree.expectedValue_of_unfold`: both agree
  with those of the unfolded tree.
-/

namespace LeadScoring.FittedTree

/-! ## Recursion over nodes -/

/-- The shares of the rows that two nodes cover, one half each if they cover none. -/
def coverShares (t : FittedTree ℚ) (left right : ℕ) : ℚ × ℚ :=
  let l := (t.counts.getD left .zero).total
  let r := (t.counts.getD right .zero).total
  if 0 < l + r then (l / (l + r), r / (l + r)) else (1 / 2, 1 / 2)

/-- The expected answer from a node on if exactly the features of a coalition are present, at most
as many splits deep as the bound. -/
def coalitionFrom (t : FittedTree ℚ) (values : Array ℚ) (S : Finset ℕ) : ℕ → ℕ → ℚ
  | 0, node => t.rateAt node
  | bound + 1, node =>
    match t.node? node with
    | some (.split feature threshold left right _) =>
      if feature.toNat ∈ S then
        if valueAt values feature ≤ threshold then t.coalitionFrom values S bound left.toNat
        else t.coalitionFrom values S bound right.toNat
      else
        (t.coverShares left.toNat right.toNat).1 * t.coalitionFrom values S bound left.toNat +
          (t.coverShares left.toNat right.toNat).2 * t.coalitionFrom values S bound right.toNat
    | _ => t.rateAt node

/-- The worth of a coalition of features in the game of a tree for a vector. -/
def coalitionValue (t : FittedTree ℚ) (values : Array ℚ) (S : Finset ℕ) : ℚ :=
  t.coalitionFrom values S t.nodeCount 0

/-- The mean answer from a node on, weighted by the rows on the way. -/
def expectedFrom (t : FittedTree ℚ) : ℕ → ℕ → ℚ
  | 0, node => t.rateAt node
  | bound + 1, node =>
    match t.node? node with
    | some (.split _ _ left right _) =>
      (t.coverShares left.toNat right.toNat).1 * t.expectedFrom bound left.toNat +
        (t.coverShares left.toNat right.toNat).2 * t.expectedFrom bound right.toNat
    | _ => t.rateAt node

/-- The mean answer of a tree, weighted by the rows that reached its leaves. -/
def expectedValue (t : FittedTree ℚ) : ℚ :=
  t.expectedFrom t.nodeCount 0

/-! ## Agreement with the unfolded tree -/

section Described

variable {t : FittedTree ℚ} {node other : ℕ} {tree right : DecisionTree ℚ}
  {nodes others : List ℕ}

/-- The counts at the root of a described tree are those stored at its node. -/
theorem counts_of_describes (h : t.Describes node tree nodes) :
    t.counts.getD node .zero = tree.counts := by
  have hstored : ∀ {entry : FittedNode ℚ}, t.node? node = some entry →
      ∃ counts, t.counts[node]? = some counts ∧
        (entry = .leaf counts ∨
          ∃ feature threshold l r, entry = .split feature threshold l r counts) := by
    intro entry hentry
    unfold node? at hentry
    split at hentry
    · rename_i _ _ _ _ counts _ _ _ _ hcounts
      split_ifs at hentry <;> cases hentry
      · exact ⟨counts, hcounts, Or.inl rfl⟩
      · exact ⟨counts, hcounts, Or.inr ⟨_, _, _, _, rfl⟩⟩
    · cases hentry
  rw [Array.getD_eq_getD_getElem?]
  cases h with
  | leaf entry =>
    obtain ⟨counts, hcounts, heq | ⟨_, _, _, _, heq⟩⟩ := hstored entry <;> cases heq
    rw [hcounts]
    rfl
  | split entry _ _ _ _ _ =>
    obtain ⟨counts, hcounts, heq | ⟨_, _, _, _, heq⟩⟩ := hstored entry <;> cases heq
    rw [hcounts]
    rfl

/-- The shares of the covers of two nodes are the fractions of the trees that stand there. -/
theorem coverShares_of_describes (h : t.Describes node tree nodes)
    (hother : t.Describes other right others) :
    t.coverShares node other = DecisionTree.childFractions tree right := by
  rw [coverShares, counts_of_describes h, counts_of_describes hother,
    DecisionTree.childFractions, Exact.half_eq]
  rfl

/-- The game from a described node on is the game of the tree. -/
theorem coalitionFrom_of_describes (h : t.Describes node tree nodes) (values : Array ℚ)
    (S : Finset ℕ) :
    ∀ {bound : ℕ}, tree.depth ≤ bound →
      t.coalitionFrom values S bound node = tree.coalitionValue values S := by
  induction h with
  | leaf entry =>
    intro bound _
    cases bound <;> simp [coalitionFrom, entry, rateAt_of_leaf entry, DecisionTree.coalitionValue]
  | @split _ _ _ _ _ _ left right _ _ entry feature_nonneg left_nonneg right_nonneg leftPart
      rightPart ihl ihr =>
    intro bound hdepth
    simp only [DecisionTree.depth] at hdepth
    obtain ⟨bound, rfl⟩ : ∃ k, bound = k + 1 := ⟨bound - 1, by omega⟩
    have hleft : left.depth ≤ bound := by omega
    have hright : right.depth ≤ bound := by omega
    rw [coalitionFrom, entry]
    simp only [ihl hleft, ihr hright,
      coverShares_of_describes leftPart rightPart, valueAt_of_nonneg feature_nonneg,
      DecisionTree.coalitionValue]

/-- The expected answer at a node is that of the tree that stands there. -/
theorem expectedFrom_of_describes (h : t.Describes node tree nodes) :
    ∀ {bound : ℕ}, tree.depth ≤ bound → t.expectedFrom bound node = tree.expectation := by
  induction h with
  | leaf entry =>
    intro bound _
    cases bound <;> simp [expectedFrom, entry, rateAt_of_leaf entry, DecisionTree.expectation]
  | @split _ _ _ _ _ _ left right _ _ entry feature_nonneg left_nonneg right_nonneg leftPart
      rightPart ihl ihr =>
    intro bound hdepth
    simp only [DecisionTree.depth] at hdepth
    obtain ⟨bound, rfl⟩ : ∃ k, bound = k + 1 := ⟨bound - 1, by omega⟩
    have hleft : left.depth ≤ bound := by omega
    have hright : right.depth ≤ bound := by omega
    rw [expectedFrom, entry]
    simp only [ihl hleft, ihr hright,
      coverShares_of_describes leftPart rightPart, DecisionTree.expectation]

end Described

section Unfolded

variable {t : FittedTree ℚ} {width : ℕ} {tree : DecisionTree ℚ}

/-- Node arrays have the game of the tree that they unfold to. -/
theorem coalitionValue_of_unfold (h : t.unfold width = .ok tree) (values : Array ℚ) :
    t.coalitionValue values = fun S => tree.coalitionValue values S := by
  obtain ⟨-, -, nodes, hdescribes, hnodup⟩ := unfold_eq_ok_iff.1 h
  funext S
  exact coalitionFrom_of_describes hdescribes values S (hdescribes.depth_le_nodeCount hnodup)

/-- The expected answer of node arrays is that of the tree that they unfold to. -/
theorem expectedValue_of_unfold (h : t.unfold width = .ok tree) :
    t.expectedValue = tree.expectation := by
  obtain ⟨-, -, nodes, hdescribes, hnodup⟩ := unfold_eq_ok_iff.1 h
  exact expectedFrom_of_describes hdescribes (hdescribes.depth_le_nodeCount hnodup)

end Unfolded

end LeadScoring.FittedTree
