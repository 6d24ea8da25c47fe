import LeadScoring.Proofs.Outcome
import LeadScoring.Proofs.Text.Bytes
import LeadScoring.Proofs.Vocabulary.Columns
import LeadScoring.Proofs.Vocabulary.Readings
import LeadScoring.Scorer

/-!
# Inputs of a table in their order

The vocabulary of a table follows its header twice: once for the columns that are numbers or flags,
and once for the categories of the others.  Each of these inputs has a field that produces it, so no
forest is refused for a derived vocabulary, neither when it is compiled nor when its artifact is
loaded.

Main results:

- Definitions `Vocabulary.directColumns`, `Vocabulary.indicatorsInOrder`: the two parts.
- Theorems `Artifact.compile_ne_unproducedInput`, `Scorer.ofArtifact_ne_unproducedInput`: an input
  without a field is refused only where there is one.
- Theorem `Vocabulary.names_derive_in_order`: the names of a derived vocabulary.
-/

namespace LeadScoring

/-! ## Refusals -/

section Refusals

variable {α : Type} [Scalar α]

/-- Compiling trees never reports an input that nothing produces. -/
theorem Artifact.compileTrees_ne_unproducedInput (v : Vocabulary) (first : ℕ)
    (trees : List (FittedTree α)) (name : String) :
    compileTrees v first trees ≠ .error (.unproducedInput name) := by
  induction trees generalizing first with
  | nil => rintro ⟨⟩
  | cons tree trees ih =>
    rw [compileTrees]
    cases tree.compile v with
    | error defect => rintro ⟨⟩
    | ok compiled =>
      simp only [Outcome.bind_ne_error_iff]
      exact ⟨by rintro ⟨⟩, fun _ _ => ⟨ih _, fun _ _ => by rintro ⟨⟩⟩⟩

/-- Compiling refuses an input without a field only where there is one. -/
theorem Artifact.compile_ne_unproducedInput {v : Vocabulary} (h : v.unproduced? = none)
    (f : Forest α) (name : String) : compile f v ≠ .error (.unproducedInput name) := by
  unfold compile
  rw [h]
  simp only [Outcome.guard_ne_error_iff, Outcome.bind_ne_error_iff]
  refine ⟨fun _ => by rintro ⟨⟩, fun _ => ⟨fun _ => by rintro ⟨⟩, fun _ => ?_⟩⟩
  exact ⟨compileTrees_ne_unproducedInput v 0 f.trees name, fun _ _ => by rintro ⟨⟩⟩

/-- Binding a node never reports an input that nothing produces. -/
theorem BoundTree.bindNode_ne_unproducedInput (v : Vocabulary) (tree count node : ℕ)
    (compiled : CompiledNode α) (name : String) :
    bindNode v tree count node compiled ≠ .error (.malformed (.unproducedInput name)) := by
  have hchild : ∀ slot : UInt32, (bindChild tree count node slot : Except (ScoringFailure α) ℕ) ≠
      .error (.malformed (.unproducedInput name)) := by
    intro slot
    rw [bindChild]
    split_ifs <;> rintro ⟨⟩
  cases compiled with
  | leaf probability =>
    rw [bindNode]
    split_ifs <;> rintro ⟨⟩
  | split feature threshold left right =>
    rw [bindNode]
    cases v.indexOf? feature with
    | none => rintro ⟨⟩
    | some slot =>
      change (if _ then _ else _) ≠ _
      simp only [Outcome.guard_ne_error_iff, Outcome.bind_ne_error_iff]
      refine ⟨fun _ => by rintro ⟨⟩, fun _ => ?_⟩
      exact ⟨hchild left, fun _ _ => ⟨hchild right, fun _ _ => by rintro ⟨⟩⟩⟩

/-- Binding a tree never reports an input that nothing produces. -/
theorem BoundTree.bind_ne_unproducedInput (v : Vocabulary) (tree : ℕ) (t : CompiledTree α)
    (name : String) : bind v tree t ≠ .error (.malformed (.unproducedInput name)) := by
  have hnodes : ∀ (first : ℕ) (nodes : List (CompiledNode α)),
      bindNodes v tree t.nodeCount first nodes ≠ .error (.malformed (.unproducedInput name)) := by
    intro first nodes
    induction nodes generalizing first with
    | nil => rintro ⟨⟩
    | cons node nodes ih =>
      rw [bindNodes]
      simp only [Outcome.bind_ne_error_iff]
      exact ⟨bindNode_ne_unproducedInput v tree _ _ node name,
        fun _ _ => ⟨ih _, fun _ _ => by rintro ⟨⟩⟩⟩
  rw [bind]
  simp only [Outcome.guard_ne_error_iff, Outcome.bind_ne_error_iff]
  refine ⟨fun _ => by rintro ⟨⟩, fun _ => ?_⟩
  exact ⟨hnodes _ _, fun _ _ => by rintro ⟨⟩⟩

/-- Binding refuses an input without a field only where there is one. -/
theorem Scorer.ofArtifact_ne_unproducedInput {a : Artifact α}
    (h : a.vocabulary.unproduced? = none) (name : String) :
    ofArtifact a ≠ .error (.malformed (.unproducedInput name)) := by
  have htrees : ∀ (first : ℕ) (trees : List (CompiledTree α)),
      bindTrees a.vocabulary first trees ≠ .error (.malformed (.unproducedInput name)) := by
    intro first trees
    induction trees generalizing first with
    | nil => rintro ⟨⟩
    | cons tree trees ih =>
      rw [bindTrees]
      simp only [Outcome.bind_ne_error_iff]
      exact ⟨BoundTree.bind_ne_unproducedInput _ _ tree name,
        fun _ _ => ⟨ih _, fun _ _ => by rintro ⟨⟩⟩⟩
  unfold ofArtifact
  rw [h]
  simp only [Outcome.guard_ne_error_iff, Outcome.bind_ne_error_iff]
  refine ⟨fun _ => by rintro ⟨⟩, fun _ => ⟨fun _ => by rintro ⟨⟩, fun _ => ⟨fun _ => by rintro ⟨⟩,
    fun _ => ?_⟩⟩⟩
  exact ⟨htrees _ _, fun _ _ => by rintro ⟨⟩⟩

end Refusals

namespace Vocabulary

variable {header : List String} {rows : List (List String)} {schema : Schema}

/-! ## The two parts -/

/-- The columns that are numbers or flags, in the order of the header. -/
def directColumns (header : List String) (rows : List (List String)) (schema : Schema) :
    List String :=
  (header.zipIdx.filter fun column =>
    schema.IsVisible column.1 ∧ ¬ HasKind schema rows column.2 column.1 .categorical).map Prod.fst

/-- The indicators of the categorical columns in the order of the header, given the categories of
the column at each position. -/
def indicatorsInOrder (header : List String) (rows : List (List String)) (schema : Schema)
    (categories : ℕ → List String) : List String :=
  (header.zipIdx.filter fun column =>
    schema.IsVisible column.1 ∧ HasKind schema rows column.2 column.1 .categorical).flatMap
      fun column => (categories column.2).map fun category => column.1 ++ "_" ++ category

/-- What some members of a list contribute is what the list of these does. -/
theorem flatMap_ite {β γ : Type} (p : β → Prop) [DecidablePred p] (f : β → List γ) (xs : List β) :
    (xs.flatMap fun x => if p x then f x else []) = (xs.filter p).flatMap f := by
  induction xs with
  | nil => rfl
  | cons x xs ih => by_cases h : p x <;> simp [h, ih]

/-- The inputs of numbers and flags are the columns of such fields. -/
theorem flatMap_directInputs (header : List String) (rows : List (List String))
    (schema : Schema) :
    (retained header rows schema).flatMap directInputs = directColumns header rows schema := by
  rw [flatMap_retained, directColumns, List.map_eq_flatMap, ← flatMap_ite]
  refine List.flatMap_congr fun column _ => ?_
  rw [directInputs, name_fieldOfColumn, ite_and, ite_not]
  exact if_congr Iff.rfl (if_congr hasKind_iff.symm rfl rfl) rfl

/-- The inputs of categories are the distinct texts of their columns, in order. -/
theorem flatMap_indicatorInputs (header : List String) (rows : List (List String))
    (schema : Schema) :
    (retained header rows schema).flatMap indicatorInputs =
      indicatorsInOrder header rows schema fun i => distinctSorted (filledCells rows i) := by
  rw [flatMap_retained, indicatorsInOrder, ← flatMap_ite]
  refine List.flatMap_congr fun column _ => ?_
  rw [indicatorInputs, ite_and]
  refine if_congr Iff.rfl (if_congr hasKind_iff.symm ?_ rfl) rfl
  refine List.map_congr_left fun category _ => ?_
  rw [Field.indicator, name_fieldOfColumn]

/-- The names of a derived vocabulary are, each where it first occurs, the columns that are numbers
or flags in the order of the header and then, column by column, the indicators of the categories in
strictly increasing order of their bytes.  Each of them is produced by a field, so it is no reason to
refuse a forest or an artifact over the vocabulary. -/
theorem names_derive_in_order (header : List String) (rows : List (List String))
    (schema : Schema) :
    (∃ categories : ℕ → List String,
      (∀ i, (categories i).Pairwise (fun s t => Text.bytes s < Text.bytes t) ∧
        ∀ text, text ∈ categories i ↔ HoldsText rows i text) ∧
      (derive header rows schema).names =
        (directColumns header rows schema ++
          indicatorsInOrder header rows schema categories).eraseDups) ∧
    (derive header rows schema).unproduced? = none ∧
    ∀ (α : Type) [Scalar α] (name : String),
      (∀ f : Forest α,
        Artifact.compile f (derive header rows schema) ≠ .error (.unproducedInput name)) ∧
      ∀ a : Artifact α, a.vocabulary = derive header rows schema →
        Scorer.ofArtifact a ≠ .error (.malformed (.unproducedInput name)) := by
  have hproduced := unproduced?_derive header rows schema
  refine ⟨⟨fun i => distinctSorted (filledCells rows i), fun i => ⟨?_, fun text => ?_⟩, ?_⟩,
    hproduced, fun α _ name => ⟨fun f => ?_, fun a ha => ?_⟩⟩
  · exact (pairwise_distinctSorted _).imp Text.bytes_lt_bytes
  · rw [mem_distinctSorted, mem_filledCells]
  · rw [← firstOccurrences_eq_eraseDups, ← flatMap_directInputs, ← flatMap_indicatorInputs]
    rfl
  · exact Artifact.compile_ne_unproducedInput hproduced f name
  · exact Scorer.ofArtifact_ne_unproducedInput (ha ▸ hproduced) name

/-- Repeated names, rows of different lengths and blank cells. -/
example : (derive ["A", "A_x", "B", "A"] [["x", "7", " b"], [" y ", "", "a "], ["x"]]
    ⟨[], []⟩).names = ["A_x", "A", "A_y", "B_a", "B_b"] := by
  decide +kernel

end Vocabulary

end LeadScoring
