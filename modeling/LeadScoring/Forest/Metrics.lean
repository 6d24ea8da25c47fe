import LeadScoring.Forest.Label
import LeadScoring.Tree.Fitted
import LeadScoring.Vocabulary.Basic

/-!
# Evaluation of forests

Accuracy, the measures of each class, the summary of a cross-validation and the ranking of
features by importance.
-/

namespace LeadScoring

variable {α : Type} [Scalar α]

namespace Forest

/-- The label that a forest predicts. -/
def predictLabel (f : Forest α) (features : Array α) : Label :=
  .ofBool (f.predictsPositive features)

/-- The number of rows with a given label and a given predicted label. -/
def confusion (f : Forest α) (features : List (Array α)) (labels : List Label)
    (actual predicted : Label) : Nat :=
  (features.zip labels).countP fun (row, label) =>
    label == actual && f.predictLabel row == predicted

/-- The share of labels that the forest predicts; zero for no labels. -/
def accuracy (f : Forest α) (features : List (Array α)) (labels : List Label) : α :=
  if labels.isEmpty then 0
  else
    (((features.zip labels).countP fun (row, label) => f.predictLabel row == label : Nat) : α) /
      (labels.length : α)

end Forest

/-- The measures of one class. -/
structure ClassMetrics (α : Type) where
  /-- The share of the class among the rows for which it is predicted. -/
  precision : α
  /-- The share of the class's rows for which it is predicted. -/
  sensitivity : α
  f1 : α
  support : Nat
deriving DecidableEq, Repr

/-- A quotient of counts, zero for the divisor zero. -/
def ratio (part whole : Nat) : α :=
  if whole = 0 then 0 else (part : α) / (whole : α)

/-- The harmonic mean of precision and sensitivity, zero if both are zero. -/
def harmonicMean (precision sensitivity : α) : α :=
  if 0 < precision + sensitivity then
    2.0 * precision * sensitivity / (precision + sensitivity)
  else 0

/-- The measures of both classes. -/
structure ClassificationReport (α : Type) where
  negative : ClassMetrics α
  positive : ClassMetrics α
deriving DecidableEq, Repr

namespace ClassificationReport

/-- The measures of a class by its correct predictions, all predictions of it and all its
rows. -/
def metricsOf (correct predicted support : Nat) : ClassMetrics α :=
  let precision : α := ratio correct predicted
  let sensitivity : α := ratio correct support
  ⟨precision, sensitivity, harmonicMean precision sensitivity, support⟩

/-- The report of a forest on labelled rows. -/
def evaluate (f : Forest α) (features : List (Array α)) (labels : List Label) :
    ClassificationReport α :=
  let cell := f.confusion features labels
  let metrics (c : Label) : ClassMetrics α :=
    metricsOf (cell c c) (cell .negative c + cell .positive c) (cell c .negative + cell c .positive)
  ⟨metrics .negative, metrics .positive⟩

end ClassificationReport

/-- The scores of the folds of a cross-validation with their mean and variance. -/
structure CrossValidation (α : Type) where
  scores : List α
  mean : α
  variance : α
deriving DecidableEq, Repr

namespace CrossValidation

/-- The summary of the folds' scores. -/
def ofScores (scores : List α) : CrossValidation α :=
  let n : α := ((max scores.length 1 : Nat) : α)
  let mean := Scalar.sum scores / n
  ⟨scores, mean, Scalar.sum (scores.map fun s => (s - mean) * (s - mean)) / n⟩

/-- The standard deviation of the scores. -/
def deviation (cv : CrossValidation Float) : Float :=
  cv.variance.sqrt

end CrossValidation

/-- The features of largest importance, equally important ones in the order of the
vocabulary. -/
def topFeatures (v : Vocabulary) (importances : List α) (limit : Nat) : List (String × α) :=
  ((v.names.zip importances).mergeSort fun a b => Scalar.totalLe b.2 a.2).take limit

end LeadScoring
