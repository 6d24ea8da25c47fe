import LeadScoring.Tree.Compile

/-!
# Artifacts

An artifact is what the scoring side loads: a vocabulary and the compiled trees over it.

Main definitions:

- `Artifact`: format version, vocabulary and trees.
- `Artifact.compile`: the artifact of a fitted forest, or the first reason against it.
-/

namespace LeadScoring

/-- A compiled forest with the vocabulary of its features. -/
structure Artifact (α : Type) where
  formatVersion : UInt32
  vocabulary : Vocabulary
  trees : List (CompiledTree α)

/-- Why a forest has no artifact. -/
inductive CompileError where
  | noTrees
  | emptyVocabulary
  | unproducedInput (name : String)
  | malformedTree (tree : Nat) (defect : TreeDefect)
deriving DecidableEq, Repr

namespace CompileError

/-- The reason in words. -/
def message : CompileError → String
  | noTrees => "ensemble contains no trees"
  | emptyVocabulary => "vocabulary is empty"
  | unproducedInput name => "vocabulary entry `" ++ name ++ "` is not produced by any field"
  | malformedTree tree defect =>
    "tree " ++ toString tree ++ " is malformed: " ++ defect.message

end CompileError

namespace Artifact

variable {α : Type}

/-- The layout version that this library writes and reads. -/
def currentVersion : UInt32 := 1

/-- The number of nodes of all trees. -/
def nodeCount (a : Artifact α) : Nat :=
  a.trees.foldl (fun n t => n + t.nodeCount) 0

variable [Scalar α]

/-- The compiled trees of fitted trees, the first of which has the given number. -/
def compileTrees (v : Vocabulary) (first : Nat) :
    List (FittedTree α) → Except CompileError (List (CompiledTree α))
  | [] => .ok []
  | tree :: trees => do
    let compiled ←
      match tree.compile v with
      | .ok compiled => .ok compiled
      | .error defect => .error (.malformedTree first defect)
    let others ← compileTrees v (first + 1) trees
    return compiled :: others

/-- The artifact of a fitted forest over a vocabulary. -/
def compile (f : Forest α) (v : Vocabulary) : Except CompileError (Artifact α) := do
  if f.trees.isEmpty then throw .noTrees
  if v.isEmpty then throw .emptyVocabulary
  if let some name := v.unproduced? then throw (.unproducedInput name)
  let trees ← compileTrees v 0 f.trees
  return ⟨currentVersion, v, trees⟩

end Artifact

end LeadScoring
