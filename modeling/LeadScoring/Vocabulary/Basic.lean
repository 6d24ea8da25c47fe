import LeadScoring.Scalar
import LeadScoring.Vocabulary.Field

/-!
# Vocabularies

A vocabulary lists the names of the model inputs in their order, each once, together with the
fields that write them.  It also encodes leads: every field writes at most one input, and an input
that the vocabulary does not list is dropped.

Main definitions and results:

- `firstOccurrences`: the distinct names of a list in the order of their first occurrence, with
  `nodup_firstOccurrences` and `mem_firstOccurrences`.
- `Vocabulary`: distinct names with their fields.
- `Vocabulary.encode`: a lead as one value per name.
-/

namespace LeadScoring

/-! ## Distinct names -/

/-- The distinct members of a list in the order of their first occurrence. -/
def firstOccurrences : List String → List String
  | [] => []
  | name :: names => name :: (firstOccurrences names).filter fun other => other != name

@[simp]
theorem mem_firstOccurrences {name : String} {names : List String} :
    name ∈ firstOccurrences names ↔ name ∈ names := by
  induction names with
  | nil => simp [firstOccurrences]
  | cons head tail ih =>
    by_cases h : name = head <;> simp [firstOccurrences, ih, h]

/-- No name occurs twice among first occurrences. -/
theorem nodup_firstOccurrences (names : List String) : (firstOccurrences names).Nodup := by
  induction names with
  | nil => simp [firstOccurrences]
  | cons head tail ih =>
    simp only [firstOccurrences, List.nodup_cons]
    exact ⟨by simp, ih.filter _⟩

/-- Distinct model input names in their order, with the fields that write them. -/
structure Vocabulary where
  names : List String
  fields : List Field
  nodup : names.Nodup

/-- A vector that is not as long as a vocabulary. -/
structure LengthMismatch where
  expected : Nat
  actual : Nat
deriving DecidableEq, Repr

/-- The mismatch in words. -/
def LengthMismatch.message (m : LengthMismatch) : String :=
  "encoded vector has " ++ toString m.actual ++ " values, vocabulary has " ++ toString m.expected

namespace Vocabulary

/-- The vocabulary of a list of names; later repetitions are dropped. -/
def ofNames (names : List String) (fields : List Field) : Vocabulary :=
  ⟨firstOccurrences names, fields, nodup_firstOccurrences names⟩

/-- The number of model inputs. -/
def size (v : Vocabulary) : Nat :=
  v.names.length

/-- Whether there is no input at all. -/
def isEmpty (v : Vocabulary) : Bool :=
  v.names.isEmpty

/-- The position of a name. -/
def indexOf? (v : Vocabulary) (name : String) : Option Nat :=
  v.names.idxOf? name

/-- Whether a name is listed. -/
def contains (v : Vocabulary) (name : String) : Bool :=
  v.names.contains name

/-- The name at a position. -/
def name? (v : Vocabulary) (i : Nat) : Option String :=
  v.names[i]?

/-- The first name that no field can write. -/
def unproduced? (v : Vocabulary) : Option String :=
  v.names.find? fun name => !v.fields.any fun f => f.produces name

/-! ## Encoding -/

variable {α : Type} [Scalar α]

/-- The input that a field writes for a lead, with its value.  A lead without a text for a
categorical field writes nothing. -/
def entry? (lead : Lead) (f : Field) : Option (String × α) :=
  match f.kind with
  | .numeric => some (f.name, Scalar.ofFloat (lead.number f.lookupKeys))
  | .flag => some (f.name, if lead.flag f.lookupKeys then 1 else 0)
  | .categorical => (lead.text? f.lookupKeys).map fun category => (f.indicator category, 1)

/-- The values with the one of a listed name replaced. -/
def set (v : Vocabulary) (values : Array α) (name : String) (x : α) : Array α :=
  match v.indexOf? name with
  | some i => values.setIfInBounds i x
  | none => values

/-- The value at the position of a name. -/
def get? (v : Vocabulary) (values : Array α) (name : String) : Option α :=
  (v.indexOf? name).bind fun i => values[i]?

/-- A lead as one value per name, in the order of the names. -/
def encode (v : Vocabulary) (lead : Lead) : Array α :=
  v.fields.foldl
    (fun values f =>
      match entry? lead f with
      | some (name, x) => v.set values name x
      | none => values)
    (Array.replicate v.size 0)

end Vocabulary

end LeadScoring
