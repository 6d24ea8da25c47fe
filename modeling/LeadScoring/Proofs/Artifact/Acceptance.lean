import LeadScoring.Proofs.Related
import LeadScoring.Proofs.Tree.Simulation

/-!
# Scorers accept what is compiled

The compiler and the scorer check different things: the compiler looks at node arrays, the scorer at
tables of named nodes.  This module shows that an artifact that compiles passes every check of the
scorer, and that the scorer answers with the prediction of the forest.

Main results:

- Theorem `Artifact.compile_eq_ok_iff`: when a forest has an artifact, and which one.
- Theorem `Artifact.exists_trees_of_compile`: the decision trees behind an artifact.
- Theorem `Scorer.ofArtifact_of_compile`: compiled artifacts are accepted.
- Theorems `Scorer.probabilities_of_compile`, `Scorer.predict_of_compile`: the answers.
- Theorem `Scorer.answers_of_compile`: compiled artifacts score every vector with a probability.
-/

namespace LeadScoring

variable {α : Type}

namespace Artifact

variable [Scalar α]

/-- Trees compile exactly if each of them does. -/
theorem compileTrees_eq_ok_iff {v : Vocabulary} {first : Nat} {trees : List (FittedTree α)}
    {compiled : List (CompiledTree α)} :
    compileTrees v first trees = .ok compiled ↔
      List.Forall₂ (fun t c => t.compile v = .ok c) trees compiled := by
  induction trees generalizing first compiled with
  | nil =>
    rw [compileTrees, List.forall₂_nil_left_iff]
    simp only [Except.ok.injEq, eq_comm]
  | cons tree trees ih =>
    rw [compileTrees, List.forall₂_cons_left_iff]
    cases htree : tree.compile v with
    | error defect => simp [bind, Except.bind]
    | ok c =>
      simp only [Outcome.bind_eq_ok_iff, Outcome.pure_eq_ok_iff, Except.ok.injEq,
        exists_eq_left', ih]
      constructor
      · rintro ⟨others, hothers, rfl⟩
        exact ⟨c, others, rfl, hothers, rfl⟩
      · rintro ⟨_, others, rfl, hothers, rfl⟩
        exact ⟨others, hothers, rfl⟩

/-- A forest has an artifact exactly if it has trees that all compile and its vocabulary has names
that are all produced; the artifact then has the compiled trees in the order of the forest. -/
theorem compile_eq_ok_iff {f : Forest α} {v : Vocabulary} {a : Artifact α} :
    compile f v = .ok a ↔
      f.trees ≠ [] ∧ v.isEmpty = false ∧ v.unproduced? = none ∧ a.formatVersion = currentVersion ∧
        a.vocabulary = v ∧ List.Forall₂ (fun t c => t.compile v = .ok c) f.trees a.trees := by
  rw [compile]
  simp only [Outcome.guard_eq_ok_iff, List.isEmpty_iff, Bool.not_eq_true, ne_eq]
  cases hproduced : v.unproduced? with
  | some name => simp [throw, throwThe, MonadExceptOf.throw, bind, Except.bind]
  | none =>
    simp only [Outcome.bind_eq_ok_iff, Outcome.pure_eq_ok_iff, compileTrees_eq_ok_iff, true_and]
    constructor
    · rintro ⟨htrees, hnames, trees, hcompiled, rfl⟩
      exact ⟨htrees, hnames, rfl, rfl, hcompiled⟩
    · rintro ⟨htrees, hnames, hversion, hvocabulary, hcompiled⟩
      refine ⟨htrees, hnames, a.trees, hcompiled, ?_⟩
      rw [← hversion, ← hvocabulary]

/-- Behind every artifact stand the decision trees that the node arrays unfold to. -/
theorem exists_trees_of_compile {f : Forest α} {v : Vocabulary} {a : Artifact α}
    (h : compile f v = .ok a) :
    ∃ trees, List.Forall₂ (fun t tree => t.unfold v.size = .ok tree) f.trees trees ∧
      a.trees = trees.map (CompiledTree.ofTree fun i => (v.name? i).getD "") := by
  obtain ⟨-, -, -, -, -, hcompiled⟩ := compile_eq_ok_iff.1 h
  have hcompiled' : ∀ {ts : List (FittedTree α)} {cs : List (CompiledTree α)},
      List.Forall₂ (fun t c => t.compile v = .ok c) ts cs →
        ∃ trees, List.Forall₂ (fun t tree => t.unfold v.size = .ok tree) ts trees ∧
          cs = trees.map (CompiledTree.ofTree fun i => (v.name? i).getD "") := by
    intro ts cs hall
    induction hall with
    | nil => exact ⟨[], .nil, rfl⟩
    | cons htree _ ih =>
      obtain ⟨tree, hunfold, rfl⟩ := FittedTree.compile_eq_ok_iff.1 htree
      obtain ⟨trees, hothers, rfl⟩ := ih
      exact ⟨tree :: trees, .cons hunfold hothers, rfl⟩
  exact hcompiled' hcompiled

end Artifact

/-! ## Predictions of unfolded trees -/

section Unfolded

variable [Scalar α] {v : Vocabulary} {fitted : List (FittedTree α)}
  {trees : List (DecisionTree α)}

/-- Node arrays predict as the tree that they unfold to. -/
theorem FittedTree.predict_of_unfold {t : FittedTree α} {width : Nat} {tree : DecisionTree α}
    (h : t.unfold width = .ok tree) (values : Array α) :
    t.predict values = tree.predict values := by
  obtain ⟨-, -, nodes, hdescribes, hnodup⟩ := FittedTree.unfold_eq_ok_iff.1 h
  exact FittedTree.predict_of_describes hdescribes hnodup values

/-- Node arrays unfold to well-formed trees only. -/
theorem FittedTree.wellFormed_of_unfold {t : FittedTree α} {width : Nat} {tree : DecisionTree α}
    (h : t.unfold width = .ok tree) : tree.WellFormed width :=
  (FittedTree.unfold_eq_ok_iff.1 h).2.1

/-- A tree answers with the share of a leaf whose counts are valid. -/
theorem DecisionTree.predict_mem_unit [SharesInUnit α] {width : Nat} {tree : DecisionTree α}
    (h : tree.WellFormed width) (values : Array α) :
    0 ≤ tree.predict values ∧ tree.predict values ≤ 1 := by
  induction tree with
  | leaf counts => exact SharesInUnit.rate_mem_unit counts h
  | split feature threshold counts left right ihl ihr =>
    obtain ⟨-, -, leftFormed, rightFormed⟩ := h
    rw [DecisionTree.predict]
    split
    · exact ihl leftFormed
    · exact ihr rightFormed

/-- Fitted trees predict what they unfold to. -/
theorem map_predict_of_unfold
    (h : List.Forall₂ (fun t tree => FittedTree.unfold t v.size = .ok tree) fitted trees)
    (values : Array α) :
    (fitted.map fun t => t.predict values) = trees.map (DecisionTree.predict values) :=
  map_eq_map_of_forall₂ h fun _ _ hunfold => FittedTree.predict_of_unfold hunfold values

/-- Trees that node arrays unfold to are well formed. -/
theorem wellFormed_of_forall₂
    (h : List.Forall₂ (fun t tree => FittedTree.unfold t v.size = .ok tree) fitted trees) :
    ∀ tree ∈ trees, tree.WellFormed v.size := by
  intro tree htree
  obtain ⟨i, hi, rfl⟩ := List.getElem_of_mem htree
  have hlength := h.length_eq
  exact FittedTree.wellFormed_of_unfold (h.get (by omega) hi)

end Unfolded

/-! ## Scorers -/

namespace Scorer

variable [Scalar α]

/-- What a scorer asks of an artifact: the current version, names that are all produced, and trees
that all bind. -/
theorem ofArtifact_eq_ok_iff {a : Artifact α} {s : Scorer α} :
    ofArtifact a = .ok s ↔
      a.formatVersion = Artifact.currentVersion ∧ a.vocabulary.isEmpty = false ∧
        a.vocabulary.unproduced? = none ∧ a.trees ≠ [] ∧ s.vocabulary = a.vocabulary ∧
        bindTrees a.vocabulary 0 a.trees = .ok s.trees := by
  rw [ofArtifact]
  simp only [Outcome.guard_eq_ok_iff, List.isEmpty_iff, Bool.not_eq_true, bne_eq_false_iff_eq]
  cases hproduced : a.vocabulary.unproduced? with
  | some name => simp [throw, throwThe, MonadExceptOf.throw, bind, Except.bind]
  | none =>
    simp only [Outcome.bind_eq_ok_iff, Outcome.pure_eq_ok_iff, Outcome.guard_eq_ok_iff,
      true_and]
    constructor
    · rintro ⟨hversion, hnames, htrees, trees, hbound, rfl⟩
      exact ⟨hversion, hnames, htrees, rfl, hbound⟩
    · rintro ⟨hversion, hnames, htrees, hvocabulary, hbound⟩
      refine ⟨hversion, hnames, htrees, s.trees, hbound, ?_⟩
      rw [← hvocabulary]

/-- Compiled tables of well-formed trees bind one after the other. -/
theorem bindTrees_ofTree [SharesInUnit α] {v : Vocabulary} {trees : List (DecisionTree α)}
    (hformed : ∀ tree ∈ trees, tree.WellFormed v.size)
    (hsize : ∀ tree ∈ trees, tree.size ≤ 2 ^ 32) (first : Nat) :
    bindTrees v first (trees.map (CompiledTree.ofTree fun i => (v.name? i).getD "")) =
      .ok (trees.map BoundTree.ofTree) := by
  induction trees generalizing first with
  | nil => rfl
  | cons tree trees ih =>
    have hothers := ih (fun other hother => hformed other (List.mem_cons_of_mem tree hother))
      (fun other hother => hsize other (List.mem_cons_of_mem tree hother)) (first + 1)
    have htree := BoundTree.bind_ofTree (k := first) (hformed tree List.mem_cons_self)
      (hsize tree List.mem_cons_self)
    rw [List.map_cons, bindTrees, htree]
    change (bindTrees v (first + 1) _ >>= fun others => pure (_ :: others)) = _
    rw [hothers]
    rfl

/-- Bound tables of trees answer with the predictions of the trees. -/
theorem evaluateTrees_ofTree (values : Array α) (trees : List (DecisionTree α)) (first : Nat) :
    evaluateTrees values first (trees.map BoundTree.ofTree) =
      .ok (trees.map (DecisionTree.predict values)) := by
  induction trees generalizing first with
  | nil => rfl
  | cons tree trees ih =>
    rw [List.map_cons, evaluateTrees, BoundTree.evaluate_ofTree]
    simp only [ih, List.map_cons]

section Compiled

variable {f : Forest α} {v : Vocabulary} {a : Artifact α}

/-- Every artifact that compiles is accepted, as long as the slots of its tables fit into child
entries, and bound to tables of the unfolded trees. -/
theorem ofArtifact_of_compile [SharesInUnit α] (h : Artifact.compile f v = .ok a)
    (hsize : ∀ c ∈ a.trees, c.nodeCount ≤ 2 ^ 32) :
    ∃ trees, List.Forall₂ (fun t tree => FittedTree.unfold t v.size = .ok tree) f.trees trees ∧
      ofArtifact a = .ok ⟨v, trees.map BoundTree.ofTree⟩ := by
  obtain ⟨htrees, hnames, hproduced, hversion, hvocabulary, hcompiled⟩ :=
    Artifact.compile_eq_ok_iff.1 h
  obtain ⟨trees, hunfold, hatrees⟩ := Artifact.exists_trees_of_compile h
  have hsize' : ∀ tree ∈ trees, tree.size ≤ 2 ^ 32 := by
    intro tree htree
    rw [← CompiledTree.nodeCount_ofTree (fun i => (v.name? i).getD "") tree]
    exact hsize _ (hatrees ▸ List.mem_map_of_mem htree)
  have hnonempty : a.trees ≠ [] := by
    intro hnil
    rw [hnil, List.forall₂_nil_right_iff] at hcompiled
    exact htrees hcompiled
  refine ⟨trees, hunfold, ?_⟩
  rw [ofArtifact_eq_ok_iff, hvocabulary, hatrees]
  exact ⟨hversion, hnames, hproduced, hatrees ▸ hnonempty, rfl,
    bindTrees_ofTree (wellFormed_of_forall₂ hunfold) hsize' 0⟩

/-- An accepted artifact answers with the predictions of the fitted trees, in their order. -/
theorem probabilities_of_compile [SharesInUnit α] (h : Artifact.compile f v = .ok a)
    (hsize : ∀ c ∈ a.trees, c.nodeCount ≤ 2 ^ 32) :
    ∃ s, ofArtifact a = .ok s ∧ s.vocabulary = v ∧
      ∀ values : Array α, values.size = v.size →
        s.probabilities values = .ok (f.trees.map fun t => t.predict values) := by
  obtain ⟨trees, hunfold, haccepted⟩ := ofArtifact_of_compile h hsize
  refine ⟨_, haccepted, rfl, ?_⟩
  intro values hvalues
  rw [probabilities, if_neg (not_not_intro hvalues), evaluateTrees_ofTree,
    map_predict_of_unfold hunfold]

end Compiled

/-- A forest that compiles has trees, so it predicts their mean. -/
theorem mean_of_compile {f : Forest α} {v : Vocabulary} {a : Artifact α}
    (h : Artifact.compile f v = .ok a) (values : Array α) :
    f.predict values = Scalar.mean (f.trees.map fun t => t.predict values) := by
  have htrees : f.trees.isEmpty = false := by
    rw [List.isEmpty_eq_false_iff]
    exact (Artifact.compile_eq_ok_iff.1 h).1
  rw [Forest.predict, htrees]
  rfl

/-- Read exactly, an accepted artifact predicts what the forest predicts. -/
theorem predict_of_compile {f : Forest ℚ} {v : Vocabulary} {a : Artifact ℚ}
    (h : Artifact.compile f v = .ok a) (hsize : ∀ c ∈ a.trees, c.nodeCount ≤ 2 ^ 32) :
    ∃ s, ofArtifact a = .ok s ∧ s.vocabulary = v ∧
      ∀ values : Array ℚ, values.size = v.size → s.predict values = .ok (f.predict values) := by
  obtain ⟨s, haccepted, hvocabulary, hprobabilities⟩ := probabilities_of_compile h hsize
  refine ⟨s, haccepted, hvocabulary, ?_⟩
  intro values hvalues
  rw [predict, hprobabilities values hvalues, mean_of_compile h]
  rfl

/-- The probabilities of the trees of a forest that compiles lie between zero and one. -/
theorem mem_unit_of_compile {α : Type} [Scalar α] [SharesInUnit α] {f : Forest α} {v : Vocabulary}
    {a : Artifact α} (h : Artifact.compile f v = .ok a) (values : Array α) :
    ∀ p ∈ f.trees.map fun t => t.predict values, 0 ≤ p ∧ p ≤ 1 := by
  obtain ⟨trees, hunfold, -⟩ := Artifact.exists_trees_of_compile h
  rw [map_predict_of_unfold hunfold]
  intro p hp
  obtain ⟨tree, htree, rfl⟩ := List.mem_map.1 hp
  exact DecisionTree.predict_mem_unit (wellFormed_of_forall₂ hunfold tree htree) values

/-- Whatever compiles is accepted, as long as child entries can hold all slots.  The scorer then has
an answer for every vector of the vocabulary's length: one probability for each tree in the order of
the forest, and the prediction of the forest, which is a probability too. -/
theorem answers_of_compile {f : Forest ℚ} {v : Vocabulary} {a : Artifact ℚ}
    (h : Artifact.compile f v = .ok a) (hsize : ∀ c ∈ a.trees, c.nodeCount ≤ 2 ^ 32) :
    ∃ s, ofArtifact a = .ok s ∧ s.vocabulary = v ∧
      ∀ values : Array ℚ, values.size = v.size →
        s.probabilities values = .ok (f.trees.map fun t => t.predict values) ∧
          s.predict values = .ok (f.predict values) ∧
            0 ≤ f.predict values ∧ f.predict values ≤ 1 := by
  obtain ⟨s, haccepted, hvocabulary, hpredict⟩ := predict_of_compile h hsize
  obtain ⟨s', haccepted', -, hprobabilities⟩ := probabilities_of_compile h hsize
  cases haccepted.symm.trans haccepted'
  refine ⟨s, haccepted, hvocabulary, fun values hvalues => ?_⟩
  refine ⟨hprobabilities values hvalues, hpredict values hvalues, ?_⟩
  rw [mean_of_compile h]
  exact Exact.mean_mem_unit (mem_unit_of_compile h values)

/-- A tree whose right child stands before the left one, and a leaf that no row has reached. -/
def stumpAndEmptyLeaf : Forest ℚ where
  trees :=
    [⟨#[0, -2, -2], #[1 / 2, -2, -2], #[2, -1, -1], #[1, -1, -1], #[⟨2, 3⟩, ⟨0, 2⟩, ⟨2, 1⟩]⟩,
     ⟨#[-2], #[-2], #[-1], #[-1], #[⟨0, 0⟩]⟩]

/-- A vocabulary of one numeric field. -/
def oneNumber : Vocabulary :=
  .ofNames ["Page Views"] [⟨"Page Views", .numeric, ["pageViews"]⟩]

/-- A stump and a leaf without rows are scored as their forest predicts. -/
theorem answers_stumpAndEmptyLeaf :
    ∃ a, Artifact.compile stumpAndEmptyLeaf oneNumber = .ok a ∧
      (∀ c ∈ a.trees, c.nodeCount ≤ 2 ^ 32) ∧
      ∃ s, ofArtifact a = .ok s ∧ s.vocabulary = oneNumber ∧
        ∀ values : Array ℚ, values.size = oneNumber.size →
          s.probabilities values = .ok (stumpAndEmptyLeaf.trees.map fun t => t.predict values) ∧
            s.predict values = .ok (stumpAndEmptyLeaf.predict values) ∧
              0 ≤ stumpAndEmptyLeaf.predict values ∧ stumpAndEmptyLeaf.predict values ≤ 1 := by
  have hcompile : Artifact.compile stumpAndEmptyLeaf oneNumber =
      .ok ⟨1, oneNumber,
        [⟨#[.split "Page Views" (1 / 2) 1 2, .leaf (ClassCounts.rate ⟨2, 1⟩),
            .leaf (ClassCounts.rate ⟨0, 2⟩)]⟩,
         ⟨#[.leaf (ClassCounts.rate ⟨0, 0⟩)]⟩]⟩ := by
    rfl
  have hsize : ∀ c ∈ [⟨#[.split "Page Views" (1 / 2) 1 2, .leaf (ClassCounts.rate ⟨2, 1⟩),
      .leaf (ClassCounts.rate ⟨0, 2⟩)]⟩, ⟨#[.leaf (ClassCounts.rate ⟨0, 0⟩)]⟩],
      (c : CompiledTree ℚ).nodeCount ≤ 2 ^ 32 := by
    simp [CompiledTree.nodeCount]
  exact ⟨_, hcompile, hsize, answers_of_compile hcompile hsize⟩

end Scorer

end LeadScoring
