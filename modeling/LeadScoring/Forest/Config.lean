import LeadScoring.Json.Value

/-!
# Training parameters

How a tree and a forest are grown, with their defaults, their checks and their JSON form.
-/

namespace LeadScoring

/-- How many features a split considers. -/
inductive MaxFeatures where
  | all
  | sqrt
  | log2
  | count (k : Nat)
deriving DecidableEq, Repr

namespace MaxFeatures

/-- The whole part of a double that is not negative. -/
def wholePart (x : Float) : Nat :=
  x.toUInt64.toNat

/-- The number of features to draw out of `n`: at least one, at most all.  Roots and logarithms
are taken in double precision. -/
def resolve (m : MaxFeatures) (n : Nat) : Nat :=
  let wanted :=
    match m with
    | all => n
    | sqrt => wholePart (Float.ofNat n).sqrt
    | log2 => wholePart (Float.ofNat n).log2
    | count k => k
  min (max wanted 1) (max n 1)

/-- The text form. -/
def text : MaxFeatures → String
  | all => "all"
  | sqrt => "sqrt"
  | log2 => "log2"
  | count k => toString k

/-- The JSON form. -/
def toJson {α : Type} : MaxFeatures → Json α
  | count k => .object [("count", Json.ofNat k)]
  | m => .string m.text

end MaxFeatures

/-- A natural number as it is given in texts: an optional plus and digits, within 64 bits. -/
def parseWord? (text : String) : Option Nat :=
  let digits :=
    match text.toList with
    | '+' :: cs => cs
    | cs => cs
  if digits.isEmpty || !digits.all Char.isDigit then none
  else
    let n := Numeral.natOfDigits digits
    if n < 0x10000000000000000 then some n else none

/-- The text of a wrong choice of features. -/
def MaxFeatures.refusal (text : String) : String :=
  "expected all, sqrt, log2 or a positive count, got `" ++ text ++ "`"

/-- The choice that a text names. -/
def MaxFeatures.parse? (text : String) : Option MaxFeatures :=
  if text = "all" then some .all
  else if text = "sqrt" then some .sqrt
  else if text = "log2" then some .log2
  else
    match parseWord? text with
    | some 0 => none
    | some k => some (.count k)
    | none => none

/-- How a single tree is grown. -/
structure TreeConfig where
  /-- The deepest level of a split is one less; without it leaves are split as long as
  possible. -/
  maxDepth : Option Nat := none
  minSamplesSplit : Nat := 2
  minSamplesLeaf : Nat := 1
  maxFeatures : MaxFeatures := .sqrt
deriving DecidableEq, Repr

/-- How a forest is grown. -/
structure ForestConfig where
  treeCount : Nat := 100
  tree : TreeConfig := {}
  /-- Whether each tree draws its rows with replacement. -/
  bootstrap : Bool := true
  seed : UInt64 := 42
  /-- Whether trees may be grown side by side, which does not change the forest. -/
  parallel : Bool := true
deriving DecidableEq, Repr

namespace TreeConfig

/-- The JSON form. -/
def toJson {α : Type} (c : TreeConfig) : Json α :=
  .object
    [("max_depth", Json.ofOption Json.ofNat c.maxDepth),
     ("min_samples_split", Json.ofNat c.minSamplesSplit),
     ("min_samples_leaf", Json.ofNat c.minSamplesLeaf),
     ("max_features", c.maxFeatures.toJson)]

end TreeConfig

namespace ForestConfig

/-- The JSON form. -/
def toJson {α : Type} (c : ForestConfig) : Json α :=
  .object
    [("n_trees", Json.ofNat c.treeCount), ("tree", c.tree.toJson), ("bootstrap", .bool c.bootstrap),
     ("seed", Json.ofNat c.seed.toNat), ("parallel", .bool c.parallel)]

end ForestConfig

end LeadScoring
