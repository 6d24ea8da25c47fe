import LeadScoring.Proofs.Attribution.Path
import LeadScoring.Proofs.Tree.Unfolding

/-!
# Contributions of a tree

A tree is a game of features: a present feature sends the vector to its own side of every split, an
absent one sends it to both sides, weighted by the rows that each received.  The walk over the tree
that keeps one path computes the Shapley values of this game.  At every node the rest of the walk
computes those of the game of the path times the game of the subtree, which makes a feature that is
tested again take its element off the path first.

Main results:

- Definition `DecisionTree.coalitionValue`: the game, with `DecisionTree.coalitionValue_empty` and
  `DecisionTree.coalitionValue_range` for nobody and everybody.
- Theorem `DecisionTree.creditTo_creditsFrom`: the invariant of the walk.
- Theorem `DecisionTree.creditTo_credits`: contributions are Shapley values.
-/

namespace LeadScoring

namespace DecisionTree

/-! ## The game of a tree -/

/-- The expected answer of a tree if exactly the features of a coalition are present. -/
def coalitionValue (values : Array ℚ) (S : Finset ℕ) : DecisionTree ℚ → ℚ
  | leaf c => c.rate
  | split test threshold _ left right =>
    if test ∈ S then
      if valueAt values test ≤ threshold then left.coalitionValue values S
      else right.coalitionValue values S
    else
      (childFractions left right).1 * left.coalitionValue values S +
        (childFractions left right).2 * right.coalitionValue values S

/-- A coalition without members has the expected answer. -/
theorem coalitionValue_empty (values : Array ℚ) (tree : DecisionTree ℚ) :
    tree.coalitionValue values ∅ = tree.expectation := by
  induction tree with
  | leaf counts => rfl
  | split test threshold counts left right ihl ihr =>
    rw [coalitionValue, if_neg (Finset.notMem_empty test), ihl, ihr]
    rfl

/-- A tree with all of its features present makes its prediction. -/
theorem coalitionValue_range {n : ℕ} (values : Array ℚ) {tree : DecisionTree ℚ}
    (h : tree.WellFormed n) :
    tree.coalitionValue values (Finset.range n) = tree.predict values := by
  induction tree with
  | leaf counts => rfl
  | split test threshold counts left right ihl ihr =>
    obtain ⟨hlisted, -, hleft, hright⟩ := h
    rw [coalitionValue, if_pos (Finset.mem_range.2 hlisted), ihl hleft, ihr hright]
    rfl

end DecisionTree

/-! ## Testing a feature again -/

namespace ShapleyPath

/-- The fractions with which a feature is tested again, and the path without it. -/
def reentry (p : ShapleyPath ℚ) (test : ℕ) : ℚ × ℚ × ShapleyPath ℚ :=
  match p.position? test with
  | some i =>
    match p.elements[i]? with
    | some e => (e.zeroFraction, e.oneFraction, p.unwind i)
    | none => (1, 1, p)
  | none => (1, 1, p)

section Reentry

variable {n test : ℕ} {p : ShapleyPath ℚ} {tested before after : List (PathElement ℚ)}
  {e : PathElement ℚ}

/-- A path has no position for a feature that it has not tested. -/
theorem position?_of_new (h : p.Represents n tested)
    (hnew : ∀ e ∈ tested, e.feature ≠ some test) : p.position? test = none := by
  obtain ⟨root, hroot, helements⟩ := h.elements
  rw [position?, helements, List.findIdx?_eq_none_iff]
  intro e he
  rcases List.mem_cons.1 he with rfl | he
  · simp [hroot]
  · simpa using hnew e he

/-- A path finds the element of a feature behind the one that stands for the root. -/
theorem position?_split (h : p.Represents n (before ++ e :: after))
    (hnew : ∀ other ∈ before, other.feature ≠ some test) (he : e.feature = some test) :
    p.position? test = some (before.length + 1) := by
  obtain ⟨root, hroot, helements⟩ := h.elements
  have hbefore : before.findIdx? (fun other => decide (other.feature = some test)) = none := by
    rw [List.findIdx?_eq_none_iff]
    simpa using hnew
  rw [position?, helements, List.findIdx?_cons, List.findIdx?_append, hbefore, List.findIdx?_cons]
  simp [hroot, he]

/-- Testing a feature leaves a path without it and the fractions that it had, one each if it is
tested for the first time. -/
theorem reentry_spec (h : p.Represents n tested) (test : ℕ) :
    ∃ others, (p.reentry test).2.2.Represents n others ∧
      (∀ e ∈ others, e.feature ≠ some test) ∧
      ∀ S, worthOf tested S =
        (if test ∈ S then (p.reentry test).2.1 else (p.reentry test).1) * worthOf others S := by
  by_cases htested : ∃ e ∈ tested, e.feature = some test
  · obtain ⟨e, he, he_feature⟩ := htested
    obtain ⟨before, after, rfl⟩ := List.append_of_mem he
    have hothers := h.ne_of_mem_others he_feature
    have hreentry : p.reentry test =
        (e.zeroFraction, e.oneFraction, p.unwind (before.length + 1)) := by
      rw [reentry,
        position?_split h (fun other hother => hothers other (by simp [hother])) he_feature]
      simp only [h.lookup.1]
    refine ⟨before ++ after, ?_, hothers, ?_⟩
    · rw [hreentry]
      exact represents_unwind h
    · intro S
      rw [hreentry, worthOf_split, PathElement.worth, he_feature]
  · have hnew : ∀ e ∈ tested, e.feature ≠ some test := fun e he heq => htested ⟨e, he, heq⟩
    have hreentry : p.reentry test = (1, 1, p) := by
      rw [reentry, position?_of_new h hnew]
    refine ⟨tested, ?_, hnew, ?_⟩
    · rw [hreentry]
      exact h
    · intro S
      rw [hreentry]
      simp

end Reentry

end ShapleyPath

namespace DecisionTree

open ShapleyPath

/-! ## The walk -/

/-- The credits of a split are those of its children, entered with the fractions of the feature. -/
theorem creditsFrom_split (values : Array ℚ) (path : ShapleyPath ℚ) (zero one : ℚ)
    (entered : Option ℕ) (test : ℕ) (threshold : ℚ) (counts : ClassCounts ℚ)
    (left right : DecisionTree ℚ) (h : ¬ (zero = 0 ∧ one = 0)) :
    creditsFrom values path zero one entered (.split test threshold counts left right) =
      let entry := (path.extend entered zero one).reentry test
      let fractions := childFractions left right
      if valueAt values test ≤ threshold then
        creditsFrom values entry.2.2 (fractions.1 * entry.1) entry.2.1 (some test) left ++
          creditsFrom values entry.2.2 (fractions.2 * entry.1) 0 (some test) right
      else
        creditsFrom values entry.2.2 (fractions.2 * entry.1) entry.2.1 (some test) right ++
          creditsFrom values entry.2.2 (fractions.1 * entry.1) 0 (some test) left := by
  rw [creditsFrom, if_neg fun hzero => h (Exact.both_beq_zero_iff.1 hzero)]
  dsimp only [reentry]
  cases (path.extend entered zero one).position? test with
  | none => rfl
  | some i =>
    dsimp only
    cases (path.extend entered zero one).elements[i]? with
    | none => rfl
    | some e => rfl

/-- Nothing is credited below a path that no coalition takes. -/
theorem creditsFrom_of_zero (values : Array ℚ) (path : ShapleyPath ℚ) {zero one : ℚ}
    (entered : Option ℕ) (tree : DecisionTree ℚ) (h : zero = 0 ∧ one = 0) :
    creditsFrom values path zero one entered tree = [] := by
  cases tree <;> rw [creditsFrom, if_pos (Exact.both_beq_zero_iff.2 h)]

/-- A path that neither the vector nor any row takes contributes nothing, as it is worth nothing. -/
theorem creditTo_creditsFrom_of_zero (values : Array ℚ) (path : ShapleyPath ℚ) {zero one : ℚ}
    (entered : Option ℕ) (tree : DecisionTree ℚ) (n feature : ℕ) (h : zero = 0 ∧ one = 0)
    {tested : List (PathElement ℚ)} (hworth : ∀ S, worthOf tested S = 0) :
    creditTo feature (tree.creditsFrom values path zero one entered) =
      shapleyValue n (fun S => worthOf tested S * tree.coalitionValue values S) feature := by
  rw [creditsFrom_of_zero values path entered tree h, shapleyValue_of_null]
  · rfl
  · intro S
    rw [hworth, hworth, zero_mul, zero_mul]

/-- The contributions below a path are the Shapley values in the game of the path times the game of
the subtree.  A path that neither the vector nor any row takes is worth nothing. -/
theorem creditTo_creditsFrom (values : Array ℚ) {n feature : ℕ} (hfeature : feature < n)
    {tree : DecisionTree ℚ} (hformed : tree.WellFormed n) :
    ∀ {path : ShapleyPath ℚ} {zero one : ℚ} {entered : Option ℕ}
      {tested : List (PathElement ℚ)},
      (¬ (zero = 0 ∧ one = 0) → (path.extend entered zero one).Represents n tested) →
      (zero = 0 ∧ one = 0 → ∀ S, worthOf tested S = 0) →
        creditTo feature (tree.creditsFrom values path zero one entered) =
          shapleyValue n (fun S => worthOf tested S * tree.coalitionValue values S) feature := by
  induction tree with
  | leaf counts =>
    intro path zero one entered tested hpath hzero
    by_cases h : zero = 0 ∧ one = 0
    · exact creditTo_creditsFrom_of_zero values path entered _ n feature h (hzero h)
    · rw [creditsFrom, if_neg fun hc => h (Exact.both_beq_zero_iff.1 hc),
        creditTo_leafCredits (hpath h) hfeature]
      rfl
  | split test threshold counts left right ihl ihr =>
    intro path zero one entered tested hpath hzero
    obtain ⟨htest, -, hleft, hright⟩ := hformed
    by_cases h : zero = 0 ∧ one = 0
    · exact creditTo_creditsFrom_of_zero values path entered _ n feature h (hzero h)
    obtain ⟨others, hothers, hnew, hworth⟩ := reentry_spec (hpath h) test
    rw [creditsFrom_split values path zero one entered test threshold counts left right h]
    dsimp only
    set entry := (path.extend entered zero one).reentry test with hentry
    -- Entering a child with some fractions is one more element behind the others.
    have hchild : ∀ z o : ℚ,
        (¬ (z = 0 ∧ o = 0) → (entry.2.2.extend (some test) z o).Represents n
          (others ++ [⟨some test, z, o⟩])) ∧
        (z = 0 ∧ o = 0 → ∀ S, worthOf (others ++ [⟨some test, z, o⟩]) S = 0) := by
      intro z o
      refine ⟨fun hfollowed => represents_extend hothers htest hnew hfollowed, ?_⟩
      rintro ⟨rfl, rfl⟩ S
      rw [worthOf_append_singleton, ite_self, mul_zero]
    by_cases hle : valueAt values test ≤ threshold
    · rw [if_pos hle, creditTo_append, ihl hleft (hchild _ _).1 (hchild _ _).2,
        ihr hright (hchild _ _).1 (hchild _ _).2, ← shapleyValue_add]
      congr 1
      funext S
      rw [worthOf_append_singleton, worthOf_append_singleton, hworth, coalitionValue]
      split_ifs <;> ring
    · rw [if_neg hle, creditTo_append, ihr hright (hchild _ _).1 (hchild _ _).2,
        ihl hleft (hchild _ _).1 (hchild _ _).2, ← shapleyValue_add]
      congr 1
      funext S
      rw [worthOf_append_singleton, worthOf_append_singleton, hworth, coalitionValue]
      split_ifs <;> ring

/-- The contributions of a tree are the Shapley values in its game. -/
theorem creditTo_credits (values : Array ℚ) {n feature : ℕ} (hfeature : feature < n)
    {tree : DecisionTree ℚ} (hformed : tree.WellFormed n) :
    creditTo feature (tree.credits values) =
      shapleyValue n (fun S => tree.coalitionValue values S) feature := by
  have hroot : ¬ ((1 : ℚ) = 0 ∧ (1 : ℚ) = 0) := by norm_num
  change creditTo feature (tree.creditsFrom values .empty (1 : ℚ) (1 : ℚ) none) = _
  rw [creditTo_creditsFrom values hfeature hformed
    (fun _ => represents_root n 1 1) fun h => absurd h hroot]
  simp [worthOf]

end DecisionTree

end LeadScoring
