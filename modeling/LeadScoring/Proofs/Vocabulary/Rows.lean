import LeadScoring.Proofs.Pipeline
import LeadScoring.Proofs.Vocabulary.Columns

/-!
# Rows as a set

Whether a column is numeric depends on what all of its cells read as, and its categories are its
texts in their own order.  Neither depends on where a row stands or on how often it does, so the
vocabulary of a table is a function of the set of its rows, and the one that a training run uses does
not depend on how the run arranges them.

Main results:

- Theorem `distinctSorted_eq_of_mem_iff`: lists with the same texts are sorted alike.
- Theorem `Vocabulary.derive_eq_of_mem_iff`: tables with the same rows have the same vocabulary.
- Theorem `Dataset.vocabulary_shuffle`: shuffling keeps the vocabulary.
- Theorem `Vocabulary.derive_depends_on_rowSet`: derivation and training runs together.
-/

namespace LeadScoring

/-- Lists with the same texts are sorted alike. -/
theorem distinctSorted_eq_of_mem_iff {texts others : List String}
    (h : ∀ text, text ∈ texts ↔ text ∈ others) : distinctSorted texts = distinctSorted others := by
  refine (pairwise_distinctSorted texts).eq_of_mem_iff (pairwise_distinctSorted others) ?_
  intro text
  rw [mem_distinctSorted, mem_distinctSorted, h]

namespace Vocabulary

variable {header : List String} {rows others : List (List String)} {schema : Schema}

/-! ## Columns -/

/-- The same rows, in any order and number, fill a column with the same texts. -/
theorem mem_filledCells_congr (h : ∀ row, row ∈ rows ↔ row ∈ others) (i : ℕ) (text : String) :
    text ∈ filledCells rows i ↔ text ∈ filledCells others i := by
  simp only [mem_filledCells, HoldsText, h]

section Cells

variable {cells more : List String} (h : ∀ text, text ∈ cells ↔ text ∈ more)

include h

/-- The same texts make the same field of a column. -/
theorem fieldOfColumn_eq_of_mem_iff (column : String) :
    fieldOfColumn schema column cells = fieldOfColumn schema column more := by
  have hkind : inferKind cells = inferKind more := by
    rw [inferKind, inferKind]
    refine if_congr ?_ rfl rfl
    rw [List.all_eq_true, List.all_eq_true]
    simp only [h]
  unfold fieldOfColumn
  rw [hkind]

/-- The same texts make the same indicators. -/
theorem indicatorInputs_eq_of_mem_iff (f : Field) :
    indicatorInputs (f, cells) = indicatorInputs (f, more) := by
  rw [indicatorInputs, indicatorInputs, distinctSorted_eq_of_mem_iff h]

end Cells

/-! ## Tables -/

/-- What columns contribute by their fields and the sets of their texts depends on the set of rows
only. -/
theorem flatMap_retained_eq_of_mem_iff {β : Type} (h : ∀ row, row ∈ rows ↔ row ∈ others)
    {f : Field × List String → List β}
    (hf : ∀ field cells more, (∀ text, text ∈ cells ↔ text ∈ more) →
      f (field, cells) = f (field, more)) :
    (retained header rows schema).flatMap f = (retained header others schema).flatMap f := by
  rw [flatMap_retained, flatMap_retained]
  refine List.flatMap_congr fun column _ => ?_
  have hcells := mem_filledCells_congr h column.2
  rw [fieldOfColumn_eq_of_mem_iff hcells, hf _ _ _ hcells]

/-- Tables with the same rows, in whatever order and however often, have the same vocabulary. -/
theorem derive_eq_of_mem_iff (header : List String) (schema : Schema)
    (h : ∀ row, row ∈ rows ↔ row ∈ others) :
    derive header rows schema = derive header others schema := by
  have hdirect : (retained header rows schema).flatMap directInputs =
      (retained header others schema).flatMap directInputs :=
    flatMap_retained_eq_of_mem_iff h fun _ _ _ _ => rfl
  have hindicators : (retained header rows schema).flatMap indicatorInputs =
      (retained header others schema).flatMap indicatorInputs :=
    flatMap_retained_eq_of_mem_iff h fun f _ _ hcells => indicatorInputs_eq_of_mem_iff hcells f
  have hfields : (retained header rows schema).map Prod.fst =
      (retained header others schema).map Prod.fst := by
    rw [List.map_eq_flatMap, List.map_eq_flatMap]
    exact flatMap_retained_eq_of_mem_iff h fun _ _ _ _ => rfl
  unfold derive
  dsimp only
  rw [hdirect, hindicators, hfields]

end Vocabulary

/-! ## Training runs -/

/-- Shuffling keeps the vocabulary. -/
theorem Dataset.vocabulary_shuffle (d : Dataset) (seed : UInt64) (schema : Schema) :
    (d.shuffle seed).vocabulary schema = d.vocabulary schema := by
  refine Vocabulary.derive_eq_of_mem_iff d.header schema fun row => ?_
  have hperm : (d.shuffle seed).samples.Perm d.samples := Generator.shuffle_perm _ d.samples
  exact (hperm.map fun s => s.cells).mem_iff

section Trained

variable {α : Type} [Scalar α] [Json.FractionText α] {options : TrainingOptions α}
  {dataset : Dataset} {outcome : TrainingOutcome α}

/-- A run models and compiles the vocabulary of its table. -/
theorem vocabulary_of_trainModel (h : trainModel options dataset = .ok outcome) :
    outcome.model.vocabulary = dataset.vocabulary options.schema ∧
      outcome.artifact.vocabulary = dataset.vocabulary options.schema := by
  have harranged : (if options.shuffle = true then dataset.shuffle options.forest.seed
      else dataset).vocabulary options.schema = dataset.vocabulary options.schema := by
    split_ifs
    · exact dataset.vocabulary_shuffle _ _
    · rfl
  unfold trainModel at h
  dsimp only at h
  simp only [Outcome.guard_eq_ok_iff, Outcome.bind_eq_ok_iff, Outcome.pure_eq_ok_iff,
    harranged] at h
  obtain ⟨-, -, -, trained, -, crossValidation, -, artifact, hcompile, rfl⟩ := h
  refine ⟨rfl, ?_⟩
  cases hartifact : FittedModel.compile ⟨dataset.vocabulary options.schema, trained.forest⟩ with
  | error reason =>
    rw [hartifact] at hcompile
    cases hcompile
  | ok a =>
    rw [hartifact] at hcompile
    cases hcompile
    obtain ⟨-, -, -, -, hvocabulary, -⟩ := Artifact.compile_eq_ok_iff.1 hartifact
    exact hvocabulary

end Trained

namespace Vocabulary

/-- The vocabulary of a table, its names, their order and the fields, is determined by the set of its
rows.  A training run therefore uses the vocabulary of its table as it is, whatever its options say
about shuffling and seeds. -/
theorem derive_depends_on_rowSet {α : Type} [Scalar α] [Json.FractionText α] :
    (∀ (header : List String) (schema : Schema) (rows others : List (List String)),
      (∀ row, row ∈ rows ↔ row ∈ others) →
        derive header rows schema = derive header others schema) ∧
    ∀ (options : TrainingOptions α) (dataset : Dataset) (outcome : TrainingOutcome α),
      trainModel options dataset = .ok outcome →
        outcome.model.vocabulary = dataset.vocabulary options.schema ∧
          outcome.artifact.vocabulary = dataset.vocabulary options.schema :=
  ⟨fun header schema _ _ hrows => derive_eq_of_mem_iff header schema hrows,
    fun _ _ _ htrained => vocabulary_of_trainModel htrained⟩

/-- A column that is numeric but for one cell, and rows of different lengths. -/
def visitRows : List (List String) :=
  [["7", "Rome"], ["n/a"], ["7", " Paris "]]

/-- The same rows in another order, some of them twice. -/
def visitRowsAgain : List (List String) :=
  [["7", " Paris "], ["n/a"], ["7", "Rome"], ["n/a"], ["7", " Paris "]]

/-- Two tables with the same rows in another order and number. -/
theorem derive_depends_on_rowSet_visits :
    (∀ row, row ∈ visitRows ↔ row ∈ visitRowsAgain) ∧
      derive ["Visits", "City"] visitRows ⟨[], []⟩ =
        derive ["Visits", "City"] visitRowsAgain ⟨[], []⟩ ∧
      ∃ outcome, trainModel cityOptions twoCities = .ok outcome ∧
        outcome.model.vocabulary = twoCities.vocabulary cityOptions.schema := by
  have hrows : ∀ row, row ∈ visitRows ↔ row ∈ visitRowsAgain := by
    intro row
    simp only [visitRows, visitRowsAgain, List.mem_cons, List.not_mem_nil, or_false]
    tauto
  obtain ⟨outcome, htrained, -⟩ := exists_outcome_twoCities
  obtain ⟨hderive, hmodel⟩ := derive_depends_on_rowSet (α := ℚ)
  exact ⟨hrows, hderive _ _ _ _ hrows, outcome, htrained, (hmodel _ _ _ htrained).1⟩

end Vocabulary

end LeadScoring
