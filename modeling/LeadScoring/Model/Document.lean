import LeadScoring.Model.Basic
import LeadScoring.Vocabulary.Document

/-!
# Fitted models as documents

The JSON form of fitted trees, forests and models.  Trees are stored as their five node arrays;
whether the arrays describe a tree is for the compiler to say.
-/

namespace LeadScoring

open Json (Raw FractionText)

variable {α : Type}

namespace ClassCounts

/-- The counts as a JSON value. -/
def toJson (c : ClassCounts α) : Json α :=
  .array [Json.ofFraction c.negative, Json.ofFraction c.positive]

/-- The counts of a tree of literals. -/
def ofRaw? [FractionText α] : Raw → Option (ClassCounts α)
  | .array [negative, positive] =>
    match (negative.fraction? : Option α), (positive.fraction? : Option α) with
    | some negative, some positive => some ⟨negative, positive⟩
    | _, _ => none
  | _ => none

end ClassCounts

namespace FittedTree

/-- The tree as a JSON value. -/
def toJson (t : FittedTree α) : Json α :=
  .object
    [("feature", .array (t.feature.toList.map Json.ofInt)),
     ("threshold", .array (t.threshold.toList.map Json.ofFraction)),
     ("children_left", .array (t.childrenLeft.toList.map Json.ofInt)),
     ("children_right", .array (t.childrenRight.toList.map Json.ofInt)),
     ("value", .array (t.counts.toList.map ClassCounts.toJson))]

/-- The names of the fields in their order. -/
def fieldNames : List String :=
  ["feature", "threshold", "children_left", "children_right", "value"]

/-- The tree of a tree of literals. -/
def ofRaw? [FractionText α] (r : Raw) : Option (FittedTree α) :=
  match r.fields? fieldNames 0 with
  | some [some feature, some threshold, some left, some right, some value] =>
    match feature.items? Raw.integer?, threshold.items? (Raw.fraction? (α := α)),
        left.items? Raw.integer?, right.items? Raw.integer?,
        value.items? (ClassCounts.ofRaw? (α := α)) with
    | some feature, some threshold, some left, some right, some counts =>
      some ⟨feature.toArray, threshold.toArray, left.toArray, right.toArray, counts.toArray⟩
    | _, _, _, _, _ => none
  | _ => none

end FittedTree

namespace Forest

/-- The forest as a JSON value. -/
def toJson (f : Forest α) : Json α :=
  .object [("trees", .array (f.trees.map FittedTree.toJson))]

/-- The forest of a tree of literals. -/
def ofRaw? [FractionText α] (r : Raw) : Option (Forest α) :=
  match r.fields? ["trees"] 0 with
  | some [some trees] => (trees.items? FittedTree.ofRaw?).map Forest.mk
  | _ => none

end Forest

namespace FittedModel

/-- The model as a JSON value. -/
def toJson (m : FittedModel α) : Json α :=
  .object [("vocabulary", m.vocabulary.toJson), ("forest", m.forest.toJson)]

variable [FractionText α]

/-- The model of a tree of literals. -/
def ofRaw? (r : Raw) : Option (FittedModel α) :=
  match r.fields? ["vocabulary", "forest"] 0 with
  | some [some vocabulary, some forest] =>
    match Vocabulary.ofRaw? vocabulary, Forest.ofRaw? forest with
    | some vocabulary, some forest => some ⟨vocabulary, forest⟩
    | _, _ => none
  | _ => none

/-- The model of a text. -/
def parse? (text : String) : Option (FittedModel α) :=
  (Raw.parse? text).bind ofRaw?

end FittedModel

end LeadScoring
