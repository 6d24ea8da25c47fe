import LeadScoring.Forest.Config
import LeadScoring.Forest.Metrics

/-!
# Training reports

What a training run says about itself, and its JSON form with the time of the run.
-/

namespace LeadScoring

/-- What a training run says about itself. -/
structure TrainingReport (α : Type) where
  dataSize : Nat
  featureCount : Nat
  trainSize : Nat
  testSize : Nat
  config : ForestConfig
  trainAccuracy : α
  /-- Absent if no row is held out, like the classification. -/
  testAccuracy : Option α
  classification : Option (ClassificationReport α)
  /-- Absent if there is no cross-validation. -/
  crossValidation : Option (CrossValidation α)
  topFeatures : List (String × α)
  artifactDigest : String

namespace ClassMetrics

/-- The measures as a JSON value. -/
def toJson {α : Type} (m : ClassMetrics α) : Json α :=
  .object
    [("precision", Json.ofFraction m.precision), ("recall", Json.ofFraction m.sensitivity),
     ("f1", Json.ofFraction m.f1), ("support", Json.ofNat m.support)]

end ClassMetrics

namespace ClassificationReport

/-- The report as a JSON value. -/
def toJson {α : Type} (r : ClassificationReport α) : Json α :=
  .object [("classes", .array [r.negative.toJson, r.positive.toJson])]

end ClassificationReport

namespace CrossValidation

/-- The summary as a JSON value. -/
def toJson (cv : CrossValidation Float) : Json Float :=
  .object
    [("folds", Json.ofNat cv.scores.length), ("scores", .array (cv.scores.map Json.ofFraction)),
     ("mean", Json.ofFraction cv.mean), ("std", Json.ofFraction cv.deviation)]

end CrossValidation

namespace TrainingReport

/-- A feature with its importance as a JSON value. -/
def rankedToJson {α : Type} (entry : String × α) : Json α :=
  .object [("feature", .string entry.1), ("importance", Json.ofFraction entry.2)]

/-- The report as a JSON value, with the time of the run. -/
def toJson (r : TrainingReport Float) (trainedAt : String) : Json Float :=
  .object
    [("trained_at", .string trainedAt), ("data_size", Json.ofNat r.dataSize),
     ("num_features", Json.ofNat r.featureCount), ("train_size", Json.ofNat r.trainSize),
     ("test_size", Json.ofNat r.testSize), ("config", r.config.toJson),
     ("train_accuracy", Json.ofFraction r.trainAccuracy),
     ("test_accuracy", Json.ofOption Json.ofFraction r.testAccuracy),
     ("classification", Json.ofOption ClassificationReport.toJson r.classification),
     ("cross_validation", Json.ofOption CrossValidation.toJson r.crossValidation),
     ("top_features", .array (r.topFeatures.map rankedToJson)),
     ("artifact_hash", .string r.artifactDigest)]

end TrainingReport

end LeadScoring
