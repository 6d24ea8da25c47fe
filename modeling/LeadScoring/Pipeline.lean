import LeadScoring.Artifact.Document
import LeadScoring.Forest.Training
import LeadScoring.Model.Basic
import LeadScoring.Report
import LeadScoring.Table.Dataset

/-!
# The training pipeline

From a dataset to a compiled artifact: the rows are shuffled, a vocabulary is derived from all of
them, a part is held out, a forest is fitted on the rest and evaluated on both, cross-validation
repeats this in folds, and the forest is compiled.

Main definitions:

- `TrainingOptions`, `PipelineError`.
- `crossValidate`: the accuracy of every fold.
- `trainModel`: the whole run.
-/

namespace LeadScoring

variable {α : Type} [Scalar α]

/-- What decides about a training run. -/
structure TrainingOptions (α : Type) where
  forest : ForestConfig
  /-- The share of each class that is held out for testing. -/
  testFraction : α
  /-- Fewer than two folds switch cross-validation off. -/
  folds : Nat
  shuffle : Bool
  schema : Schema

/-- Why a training run has no outcome. -/
inductive PipelineError (α : Type) where
  | load (error : LoadError)
  | noFeatures
  | emptyTrainingSplit
  | training (error : TrainingError α)
  | compile (error : CompileError)

namespace PipelineError

/-- The reason in words. -/
def message : PipelineError Float → String
  | load error => "dataset error: " ++ error.message
  | noFeatures => "dataset error: no feature columns left after exclusions"
  | emptyTrainingSplit => "dataset error: training split is empty"
  | training error => "training error: " ++ error.message
  | compile error => "compilation failed: " ++ error.message

end PipelineError

/-- What a training run produces. -/
structure TrainingOutcome (α : Type) where
  model : FittedModel α
  artifact : Artifact α
  report : TrainingReport α

/-- How many features a report lists. -/
def reportedFeatures : Nat := 10

/-- A forest fitted on labelled rows. -/
def trainOn (config : ForestConfig) (rows : List (Array α × Label)) :
    Except (TrainingError α) (TrainedForest α) :=
  Forest.train config (rows.map (·.1)) (rows.map fun row => row.2.toNat)

/-- The rows of a fold: those whose position leaves the fold's number modulo `k`. -/
def foldRows {β : Type} (k fold : Nat) (rows : List β) : List β :=
  (rows.zipIdx.filter fun row => row.2 % k == fold).map (·.1)

/-- The rows of all other folds. -/
def otherRows {β : Type} (k fold : Nat) (rows : List β) : List β :=
  (rows.zipIdx.filter fun row => row.2 % k != fold).map (·.1)

/-- The accuracy on a fold of a forest fitted on all others. -/
def foldScore (config : ForestConfig) (k : Nat) (rows : List (Array α × Label)) (fold : Nat) :
    Except (TrainingError α) α := do
  let trained ← trainOn config (otherRows k fold rows)
  let held := foldRows k fold rows
  return trained.forest.accuracy (held.map (·.1)) (held.map (·.2))

/-- The scores of the folds from a number on. -/
def foldScores (config : ForestConfig) (k : Nat) (rows : List (Array α × Label)) :
    List Nat → Except (TrainingError α) (List α)
  | [] => .ok []
  | fold :: folds => do
    let score ← foldScore config k rows fold
    let scores ← foldScores config k rows folds
    return score :: scores

/-- The summary of `k` folds, unless there are fewer than two folds or fewer rows than folds. -/
def crossValidate (config : ForestConfig) (k : Nat) (rows : List (Array α × Label)) :
    Except (TrainingError α) (Option (CrossValidation α)) :=
  if k < 2 ∨ rows.length < k then .ok none
  else (foldScores config k rows (List.range k)).map fun scores => some (.ofScores scores)

/-- The rows of a dataset encoded over a vocabulary, with their labels. -/
def encodedRows (d : Dataset) (v : Vocabulary) : List (Array α × Label) :=
  (d.matrix v).zip d.labels

/-- The training run on a dataset. -/
def trainModel [Json.FractionText α] (options : TrainingOptions α) (dataset : Dataset) :
    Except (PipelineError α) (TrainingOutcome α) := do
  if !(decide (0 ≤ options.testFraction) && decide (options.testFraction < 1)) then
    throw (.training (.testFraction options.testFraction))
  let config := options.forest
  let dataset := if options.shuffle then dataset.shuffle config.seed else dataset
  let vocabulary := dataset.vocabulary options.schema
  if vocabulary.isEmpty then throw .noFeatures
  let (train, test) := dataset.split options.testFraction config.seed
  if train.isEmpty then throw .emptyTrainingSplit
  let trained ← (trainOn config (encodedRows train vocabulary)).mapError .training
  let forest := trained.forest
  let trainAccuracy := forest.accuracy (train.matrix vocabulary) train.labels
  let tested := !test.isEmpty
  let testAccuracy := forest.accuracy (test.matrix vocabulary) test.labels
  let classification := ClassificationReport.evaluate forest (test.matrix vocabulary) test.labels
  let crossValidation ←
    (crossValidate config options.folds (encodedRows dataset vocabulary)).mapError .training
  let model : FittedModel α := ⟨vocabulary, forest⟩
  let artifact ← model.compile.mapError .compile
  let report : TrainingReport α :=
    { dataSize := dataset.size
      featureCount := vocabulary.size
      trainSize := train.size
      testSize := test.size
      config := config
      trainAccuracy := trainAccuracy
      testAccuracy := if tested then some testAccuracy else none
      classification := if tested then some classification else none
      crossValidation := crossValidation
      topFeatures := topFeatures vocabulary trained.importances reportedFeatures
      artifactDigest := artifact.digest }
  return ⟨model, artifact, report⟩

/-- The training run on the text of a table. -/
def trainOnCsv [Json.FractionText α] (options : TrainingOptions α) (text : String) :
    Except (PipelineError α) (TrainingOutcome α) :=
  match Dataset.ofCsv text with
  | .error e => .error (.load e)
  | .ok dataset => trainModel options dataset

end LeadScoring
