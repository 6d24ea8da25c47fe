import LeadScoring.Artifact.Document
import LeadScoring.Explanation

/-!
# Scoring with artifacts

A scorer binds an artifact: every feature name becomes a position in the encoded vector, and every
defect that could disturb a walk is refused.  One thing cannot be refused beforehand, a table
whose walk runs in a circle for some vectors; such a walk is cut off after as many steps as there
are nodes.

The engine always answers.  Without a usable artifact, or when a walk is cut off, it scores by
rules.

Main definitions:

- `ArtifactDefect`, `ScoringFailure`: what can go wrong.
- `BoundTree.evaluate`: the probability at the leaf that a vector reaches.
- `Scorer.ofArtifact`, `Scorer.predict`, `Scorer.score`: binding and scoring.
- `Engine.score`: a score for every lead.
-/

namespace LeadScoring

/-! ## Failures -/

/-- Why an artifact cannot be used. -/
inductive ArtifactDefect (α : Type) where
  | emptyVocabulary
  | unproducedInput (name : String)
  | noTrees
  | emptyTree (tree : Nat)
  | nonFiniteThreshold (tree node : Nat)
  | missingChild (tree node child : Nat)
  | improbable (tree leaf : Nat) (probability : α)
deriving DecidableEq, Repr

/-- Why an artifact or a vector has no score. -/
inductive ScoringFailure (α : Type) where
  | undecodable
  | unsupportedVersion (version : UInt32)
  | malformed (defect : ArtifactDefect α)
  | unknownFeature (tree node : Nat) (feature : String)
  | endlessWalk (tree : Nat)
  | lengthMismatch (mismatch : LengthMismatch)
  | nonFiniteScore
deriving DecidableEq, Repr

namespace ArtifactDefect

/-- The defect in words. -/
def message : ArtifactDefect Float → String
  | emptyVocabulary => "vocabulary is empty"
  | unproducedInput name => "vocabulary entry `" ++ name ++ "` is not produced by any field"
  | noTrees => "artifact contains no trees"
  | emptyTree tree => "tree " ++ toString tree ++ " has no nodes"
  | nonFiniteThreshold tree node =>
    "tree " ++ toString tree ++ " node " ++ toString node ++ " has non-finite threshold"
  | missingChild tree node child =>
    "tree " ++ toString tree ++ " node " ++ toString node ++ " points to missing child " ++
      toString child
  | improbable tree leaf probability =>
    "tree " ++ toString tree ++ " leaf " ++ toString leaf ++ " has probability " ++
      Layout.plain.write probability ++ " outside [0, 1]"

end ArtifactDefect

namespace ScoringFailure

/-- The failure in words. -/
def message : ScoringFailure Float → String
  | undecodable => "artifact could not be decoded"
  | unsupportedVersion version =>
    "unsupported artifact format version " ++ toString version.toNat
  | malformed defect => "artifact is malformed: " ++ defect.message
  | unknownFeature tree node feature =>
    "tree " ++ toString tree ++ " node " ++ toString node ++ " references unknown feature `" ++
      feature ++ "`"
  | endlessWalk tree => "tree " ++ toString tree ++ " did not reach a leaf"
  | lengthMismatch mismatch => mismatch.message
  | nonFiniteScore => "ensemble produced a non-finite score"

end ScoringFailure

/-! ## Bound trees -/

/-- A node whose feature is a position in the vector. -/
inductive BoundNode (α : Type) where
  | split (feature : Nat) (threshold : α) (left right : Nat)
  | leaf (probability : α)
deriving DecidableEq, Repr

/-- A table of bound nodes. -/
structure BoundTree (α : Type) where
  nodes : Array (BoundNode α)
deriving DecidableEq, Repr

namespace BoundTree

variable {α : Type} [Scalar α]

/-- A child as a position in a table of `count` nodes. -/
def bindChild (tree count node : Nat) (child : UInt32) : Except (ScoringFailure α) Nat :=
  if child.toNat < count then .ok child.toNat
  else .error (.malformed (.missingChild tree node child.toNat))

/-- A node with its feature looked up and its parts checked. -/
def bindNode (v : Vocabulary) (tree count node : Nat) :
    CompiledNode α → Except (ScoringFailure α) (BoundNode α)
  | .split feature threshold left right => do
    let slot ←
      match v.indexOf? feature with
      | some slot => pure slot
      | none => throw (.unknownFeature tree node feature)
    if !Scalar.isFinite threshold then
      throw (.malformed (.nonFiniteThreshold tree node))
    let left ← bindChild tree count node left
    let right ← bindChild tree count node right
    return .split slot threshold left right
  | .leaf probability =>
    if 0 ≤ probability ∧ probability ≤ 1 then .ok (.leaf probability)
    else .error (.malformed (.improbable tree node probability))

/-- The nodes of a table from a position on. -/
def bindNodes (v : Vocabulary) (tree count : Nat) (first : Nat) :
    List (CompiledNode α) → Except (ScoringFailure α) (List (BoundNode α))
  | [] => .ok []
  | node :: nodes => do
    let bound ← bindNode v tree count first node
    let others ← bindNodes v tree count (first + 1) nodes
    return bound :: others

/-- The bound form of the compiled tree with the given number. -/
def bind (v : Vocabulary) (tree : Nat) (t : CompiledTree α) :
    Except (ScoringFailure α) (BoundTree α) := do
  if t.nodes.isEmpty then throw (.malformed (.emptyTree tree))
  let nodes ← bindNodes v tree t.nodeCount 0 t.nodes.toList
  return ⟨nodes.toArray⟩

/-- The probability of the leaf reached from a node within a number of steps. -/
def walk (t : BoundTree α) (values : Array α) : Nat → Nat → Option α
  | 0, _ => none
  | steps + 1, i =>
    match t.nodes[i]? with
    | none => none
    | some (.leaf probability) => some probability
    | some (.split feature threshold left right) =>
      if DecisionTree.valueAt values feature ≤ threshold then t.walk values steps left
      else t.walk values steps right

/-- The probability of the leaf that a vector reaches.  A walk that takes more steps than there
are nodes has met a node twice and never ends. -/
def evaluate (t : BoundTree α) (values : Array α) : Option α :=
  t.walk values t.nodes.size 0

end BoundTree

/-! ## Scorers -/

/-- A bound artifact. -/
structure Scorer (α : Type) where
  vocabulary : Vocabulary
  trees : List (BoundTree α)

namespace Scorer

variable {α : Type} [Scalar α]

/-- The bound forms of compiled trees, the first of which has the given number. -/
def bindTrees (v : Vocabulary) (first : Nat) :
    List (CompiledTree α) → Except (ScoringFailure α) (List (BoundTree α))
  | [] => .ok []
  | tree :: trees => do
    let bound ← BoundTree.bind v first tree
    let others ← bindTrees v (first + 1) trees
    return bound :: others

/-- The scorer of an artifact. -/
def ofArtifact (a : Artifact α) : Except (ScoringFailure α) (Scorer α) := do
  if a.formatVersion != Artifact.currentVersion then throw (.unsupportedVersion a.formatVersion)
  if a.vocabulary.isEmpty then throw (.malformed .emptyVocabulary)
  if let some name := a.vocabulary.unproduced? then throw (.malformed (.unproducedInput name))
  if a.trees.isEmpty then throw (.malformed .noTrees)
  let trees ← bindTrees a.vocabulary 0 a.trees
  return ⟨a.vocabulary, trees⟩

/-- The scorer of an artifact's text. -/
def ofText [Json.FractionText α] (text : String) : Except (ScoringFailure α) (Scorer α) :=
  match Artifact.parse? text with
  | some a => ofArtifact a
  | none => .error .undecodable

/-- The probabilities of trees for a vector, the first tree having the given number. -/
def evaluateTrees (values : Array α) (first : Nat) :
    List (BoundTree α) → Except (ScoringFailure α) (List α)
  | [] => .ok []
  | tree :: trees =>
    match tree.evaluate values with
    | none => .error (.endlessWalk first)
    | some p =>
      match evaluateTrees values (first + 1) trees with
      | .ok ps => .ok (p :: ps)
      | .error failure => .error failure

/-- The probabilities of all trees for a vector, in their order. -/
def probabilities (s : Scorer α) (values : Array α) : Except (ScoringFailure α) (List α) :=
  if values.size ≠ s.vocabulary.size then
    .error (.lengthMismatch ⟨s.vocabulary.size, values.size⟩)
  else evaluateTrees values 0 s.trees

/-- The mean probability of all trees. -/
def predict (s : Scorer α) (values : Array α) : Except (ScoringFailure α) α :=
  match s.probabilities values with
  | .error failure => .error failure
  | .ok ps =>
    let score := Scalar.mean ps
    if Scalar.isFinite score then .ok score else .error .nonFiniteScore

/-- The score of a lead with the impacts of its signals. -/
def score (s : Scorer α) (lead : Lead) : Except (ScoringFailure α) (Scored α) :=
  match s.predict (s.vocabulary.encode lead) with
  | .error failure => .error failure
  | .ok score => .ok ⟨score, signalImpacts (Signals.ofLead lead)⟩

end Scorer

/-! ## The engine -/

/-- Where a score comes from. -/
inductive ScoreSource where
  | model
  | rules
deriving DecidableEq, Repr

/-- A scorer, or nothing but the rules. -/
structure Engine (α : Type) where
  scorer : Option (Scorer α)

namespace Engine

variable {α : Type} [Scalar α]

omit [Scalar α] in
/-- The engine that scores by rules alone. -/
def rulesOnly : Engine α :=
  ⟨none⟩

/-- The engine of an artifact's text; a text without a usable artifact leaves the rules. -/
def ofText [Json.FractionText α] (text : String) : Engine α :=
  ⟨(Scorer.ofText text).toOption⟩

omit [Scalar α] in
/-- Whether there is a scorer. -/
def hasModel (e : Engine α) : Bool :=
  e.scorer.isSome

/-- The score of a lead: the scorer's if it has one, the rules' otherwise. -/
def score (e : Engine α) (lead : Lead) : Scored α × ScoreSource :=
  match e.scorer with
  | none => (ruleScore lead, .rules)
  | some scorer =>
    match scorer.score lead with
    | .ok result => (result, .model)
    | .error _ => (ruleScore lead, .rules)

end Engine

end LeadScoring
