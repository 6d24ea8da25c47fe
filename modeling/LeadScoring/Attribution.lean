import LeadScoring.Artifact.Basic
import LeadScoring.Explanation

/-!
# Exact attribution

The contribution of a feature to a tree's prediction is its Shapley value in the game in which a
split on an absent feature follows both children, weighted by the rows that reached them.  One walk
over the tree computes the values of all features.  It keeps, for the distinct features tested
above a node, the share of rows that follow the vector's side and the total weight of the
permutations in which a given number of those features is present.

Main definitions:

- `ShapleyPath`: the features tested above a node and the permutation weights, with `extend`,
  `unwind` and `unwoundSum`.
- `DecisionTree.expectation`: the prediction when every feature is absent.
- `DecisionTree.credits`: the contributions of a tree, leaf by leaf.
- `Explainer`: a forest checked against its vocabulary, with `attributionOf` and `explain`.
-/

namespace LeadScoring

variable {α : Type} [Scalar α]

/-! ## Paths -/

/-- A feature tested above a node: the share of rows that follow the path when the feature is
absent, and whether the vector itself follows it. -/
structure PathElement (α : Type) where
  /-- Absent for the place above the root. -/
  feature : Option Nat
  zeroFraction : α
  oneFraction : α
deriving DecidableEq, Repr

/-- The distinct features tested above a node.  `weights` has the same length; its entry `i` is
the weight of the coalitions of `i` features. -/
structure ShapleyPath (α : Type) where
  elements : List (PathElement α)
  weights : List α
deriving DecidableEq, Repr

namespace ShapleyPath

/-- The path above the root. -/
def empty : ShapleyPath α :=
  ⟨[], []⟩

omit [Scalar α] in
/-- The position of the element of a feature. -/
def position? (p : ShapleyPath α) (feature : Nat) : Option Nat :=
  p.elements.findIdx? fun e => e.feature = some feature

/-- The weights of a path of `depth` elements after one more: `carried` is what the entry before
contributes to the first of the given weights, whose number is `i`. -/
def extendedWeights (zero one scale : α) (depth : Nat) : Nat → Option α → List α → List α
  | i, carried, w :: ws =>
    let kept := zero * w * ((depth - i : Nat) : α) / scale
    let here :=
      match carried with
      | some c => kept + c
      | none => kept
    here :: extendedWeights zero one scale depth (i + 1)
      (some (one * w * ((i + 1 : Nat) : α) / scale)) ws
  | _, some c, [] => [0 + c]
  | _, none, [] => [1]

/-- The path with one more element. -/
def extend (p : ShapleyPath α) (feature : Option Nat) (zero one : α) : ShapleyPath α :=
  let depth := p.elements.length
  ⟨p.elements ++ [⟨feature, zero, one⟩],
    extendedWeights zero one ((depth + 1 : Nat) : α) depth 0 none p.weights⟩

/-- The weights without an element: from the last entry down, each quotient is split off from the
weight above it.  The result holds the weights of the entries `i - 1` down to 0, last first. -/
def unwoundWeights (zero one scale : α) (depth : Nat) : Nat → α → List α → List α
  | i + 1, nextOne, w :: ws =>
    let share := nextOne * scale / (((i + 1 : Nat) : α) * one)
    share ::
      unwoundWeights zero one scale depth i (w - share * zero * ((depth - i : Nat) : α) / scale) ws
  | _, _, _ => []

/-- The weights without an element that the vector does not follow: every entry is scaled
back. -/
def rescaledWeights (zero scale : α) (depth : Nat) : Nat → List α → List α
  | i + 1, w :: ws =>
    w * scale / (zero * ((depth - i : Nat) : α)) :: rescaledWeights zero scale depth i ws
  | _, _ => []

/-- The path without the element at a position. -/
def unwind (p : ShapleyPath α) (index : Nat) : ShapleyPath α :=
  match p.elements[index]?, p.weights.reverse with
  | some e, last :: others =>
    let depth := p.elements.length - 1
    let scale : α := ((depth + 1 : Nat) : α)
    let weights :=
      if e.oneFraction != 0 then
        unwoundWeights e.zeroFraction e.oneFraction scale depth depth last others
      else rescaledWeights e.zeroFraction scale depth depth others
    ⟨p.elements.eraseIdx index, weights.reverse⟩
  | _, _ => p

/-- The sum of the weights split off by an element that the vector follows. -/
def splitOffSum (zero one scale : α) (depth : Nat) : Nat → α → α → List α → α
  | i + 1, nextOne, total, w :: ws =>
    let share := nextOne * scale / (((i + 1 : Nat) : α) * one)
    splitOffSum zero one scale depth i (w - share * zero * ((depth - i : Nat) : α) / scale)
      (total + share) ws
  | _, _, total, _ => total

/-- The sum of the weights scaled back for an element that the vector does not follow. -/
def scaledBackSum (zero scale : α) (depth : Nat) : Nat → α → List α → α
  | i + 1, total, w :: ws =>
    scaledBackSum zero scale depth i
      (if zero != 0 then total + w / zero / (((depth - i : Nat) : α) / scale) else total) ws
  | _, total, _ => total

/-- The total weight of the path without the element at a position. -/
def unwoundSum (p : ShapleyPath α) (index : Nat) : α :=
  match p.elements[index]?, p.weights.reverse with
  | some e, last :: others =>
    let depth := p.elements.length - 1
    let scale : α := ((depth + 1 : Nat) : α)
    if e.oneFraction != 0 then
      splitOffSum e.zeroFraction e.oneFraction scale depth depth last 0 others
    else scaledBackSum e.zeroFraction scale depth depth 0 others
  | _, _ => 0

/-- The contributions of the features of a path to a leaf's value, in the order of the path. -/
def leafCredits (p : ShapleyPath α) (value : α) : List (Nat × α) :=
  p.elements.zipIdx.filterMap fun (e, i) =>
    match e.feature with
    | some feature =>
      if i = 0 then none
      else some (feature, p.unwoundSum i * (e.oneFraction - e.zeroFraction) * value)
    | none => none

end ShapleyPath

/-! ## Trees -/

namespace DecisionTree

/-- The shares of the rows that two children received, one half each if there are none. -/
def childFractions (left right : DecisionTree α) : α × α :=
  let l := left.counts.total
  let r := right.counts.total
  if 0 < l + r then (l / (l + r), r / (l + r)) else (0.5, 0.5)

/-- The mean of the leaf values, weighted by the rows on the way. -/
def expectation : DecisionTree α → α
  | leaf c => c.rate
  | split _ _ _ left right =>
    let (l, r) := childFractions left right
    l * left.expectation + r * right.expectation

/-- The contributions of a tree below a path that is entered with the given fractions, leaf by
leaf, the side that the vector takes coming first.  Where both fractions are zero nothing is
contributed. -/
def creditsFrom (values : Array α) (path : ShapleyPath α) (zero one : α) (feature : Option Nat) :
    DecisionTree α → List (Nat × α)
  | leaf c =>
    if zero == 0 && one == 0 then []
    else (path.extend feature zero one).leafCredits c.rate
  | split test threshold _ left right =>
    if zero == 0 && one == 0 then []
    else
      let path := path.extend feature zero one
      let (leftFraction, rightFraction) := childFractions left right
      let (inZero, inOne, path) :=
        match path.position? test with
        | some i =>
          match path.elements[i]? with
          | some e => (e.zeroFraction, e.oneFraction, path.unwind i)
          | none => (1, 1, path)
        | none => (1, 1, path)
      if valueAt values test ≤ threshold then
        creditsFrom values path (leftFraction * inZero) inOne (some test) left ++
          creditsFrom values path (rightFraction * inZero) 0 (some test) right
      else
        creditsFrom values path (rightFraction * inZero) inOne (some test) right ++
          creditsFrom values path (leftFraction * inZero) 0 (some test) left

/-- The contributions of a tree, leaf by leaf. -/
def credits (values : Array α) (tree : DecisionTree α) : List (Nat × α) :=
  tree.creditsFrom values .empty 1 1 none

end DecisionTree

/-! ## Forests -/

/-- The attribution of one prediction. -/
structure Attribution (α : Type) where
  /-- The mean expectation of the trees. -/
  baseline : α
  score : α
  /-- One contribution per feature, in the order of the vocabulary. -/
  contributions : List α
deriving DecidableEq, Repr

namespace Attribution

/-- The sum of the contributions. -/
def total (a : Attribution α) : α :=
  Scalar.sum a.contributions

end Attribution

/-- A forest that compiles against a vocabulary, as decision trees. -/
structure Explainer (α : Type) where
  vocabulary : Vocabulary
  trees : List (DecisionTree α)
  /-- How many contributions an explanation keeps. -/
  kept : Nat

namespace Explainer

/-- The explainer of a forest, unless the forest does not compile. -/
def ofForest (f : Forest α) (v : Vocabulary) (kept : Nat) :
    Except CompileError (Explainer α) := do
  let _ ← Artifact.compile f v
  return ⟨v, f.trees.filterMap fun t => (t.unfold v.size).toOption, kept⟩

/-- The sums of the trees' contributions to each feature. -/
def contributionSums (e : Explainer α) (values : Array α) : Array α :=
  (e.trees.flatMap fun tree => tree.credits values).foldl
    (fun sums (feature, x) => sums.modify feature (· + x)) (Array.replicate e.vocabulary.size 0)

/-- The attribution of a vector of the vocabulary's length. -/
def attributeAligned (e : Explainer α) (values : Array α) : Attribution α :=
  let n : α := (e.trees.length : α)
  { baseline := (e.trees.map DecisionTree.expectation).foldl (· + ·) 0 / n
    score := (e.trees.map (DecisionTree.predict values)).foldl (· + ·) 0 / n
    contributions := (e.contributionSums values).toList.map (· / n) }

/-- The attribution of a vector, which has to have the vocabulary's length. -/
def attributionOf (e : Explainer α) (values : Array α) : Except LengthMismatch (Attribution α) :=
  if values.size = e.vocabulary.size then .ok (e.attributeAligned values)
  else .error ⟨e.vocabulary.size, values.size⟩

/-- The score of a lead with its strongest contributions. -/
def explain (e : Explainer α) (lead : Lead) : Scored α :=
  let a := e.attributeAligned (e.vocabulary.encode lead)
  let impacts := (e.vocabulary.names.zip a.contributions).map fun (name, x) => ⟨name, x⟩
  ⟨a.score, topByMagnitude impacts e.kept⟩

end Explainer

end LeadScoring
