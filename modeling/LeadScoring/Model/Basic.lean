import LeadScoring.Attribution

/-!
# Fitted models

A fitted model is what training leaves behind besides the artifact: the forest with the row counts
of its nodes, and the vocabulary that its feature numbers refer to.
-/

namespace LeadScoring

/-- A fitted forest with the vocabulary of its features. -/
structure FittedModel (α : Type) where
  vocabulary : Vocabulary
  forest : Forest α

namespace FittedModel

variable {α : Type} [Scalar α]

/-- The compiled artifact. -/
def compile (m : FittedModel α) : Except CompileError (Artifact α) :=
  Artifact.compile m.forest m.vocabulary

/-- The explainer that keeps a number of contributions. -/
def explainer (m : FittedModel α) (kept : Nat) : Except CompileError (Explainer α) :=
  Explainer.ofForest m.forest m.vocabulary kept

end FittedModel

end LeadScoring
