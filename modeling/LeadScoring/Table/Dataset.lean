import LeadScoring.Forest.Label
import LeadScoring.Random
import LeadScoring.Table.Csv
import LeadScoring.Vocabulary.Derivation

/-!
# Training data

A dataset is a table of texts with a label for every row.  It is loaded from comma-separated text,
shuffled and split by seeds, and encoded row by row exactly as incoming leads are.

Main definitions:

- `Dataset`, `Sample`: the table.
- `Dataset.ofCsv`: loading, with `LoadError`.
- `Dataset.shuffle`, `Dataset.split`: random order, and a split that keeps the shares of the
  labels.
- `Dataset.vocabulary`, `Dataset.matrix`: the way to model inputs.
-/

namespace LeadScoring

/-- A row of a table with its label. -/
structure Sample where
  cells : List String
  label : Label
deriving DecidableEq, Repr, Inhabited

/-- A table with labelled rows. -/
structure Dataset where
  header : List String
  samples : List Sample
deriving DecidableEq, Repr

/-- Why a text is no dataset. -/
inductive LoadError where
  | emptyTable
  | missingTarget
  | malformedRecord
  | invalidTarget (line : Nat) (target : String)
  | noRows
deriving DecidableEq, Repr

namespace Dataset

/-- The column of the labels. -/
def targetColumn : String := "Converted"

end Dataset

namespace LoadError

/-- The reason in words. -/
def message : LoadError → String
  | emptyTable => "Dataset is empty"
  | missingTarget => "Missing target column `" ++ Dataset.targetColumn ++ "`"
  | malformedRecord => "Malformed CSV record"
  | invalidTarget line target =>
    "Line " ++ toString line ++ ": invalid target: expected 0 or 1, got `" ++ target ++ "`"
  | noRows => "Dataset has a header but no rows"

end LoadError

namespace Label

/-- The label of a cell: one of four spellings each, in any letter case. -/
def ofCell? (cell : String) : Option Label :=
  let word := Text.lowerAscii (Text.trim cell)
  if ["1", "1.0", "true", "yes"].contains word then some positive
  else if ["0", "0.0", "false", "no"].contains word then some negative
  else none

end Label

namespace Dataset

/-! ## Loading -/

/-- The sample of a record under a header of the given width. -/
def sampleOf (width target : Nat) (r : Csv.Record) : Except LoadError Sample :=
  if r.cells.length ≠ width then .error .malformedRecord
  else
    let cell := r.cells.getD target ""
    match Label.ofCell? cell with
    | some label => .ok ⟨r.cells, label⟩
    | none => .error (.invalidTarget r.line (Text.lowerAscii (Text.trim cell)))

/-- The samples of records, or the first fault in one of them. -/
def samplesOf (width target : Nat) : List Csv.Record → Except LoadError (List Sample)
  | [] => .ok []
  | r :: rs =>
    match sampleOf width target r with
    | .error e => .error e
    | .ok sample =>
      match samplesOf width target rs with
      | .error e => .error e
      | .ok samples => .ok (sample :: samples)

/-- The dataset of a comma-separated text. -/
def ofCsv (text : String) : Except LoadError Dataset :=
  match Csv.records text with
  | [] => .error .emptyTable
  | header :: records =>
    match header.cells.idxOf? targetColumn with
    | none => .error .missingTarget
    | some target =>
      match samplesOf header.cells.length target records with
      | .error e => .error e
      | .ok samples =>
        if samples.isEmpty then .error .noRows else .ok ⟨header.cells, samples⟩

/-! ## Rows -/

/-- The number of rows. -/
def size (d : Dataset) : Nat :=
  d.samples.length

/-- Whether there is no row. -/
def isEmpty (d : Dataset) : Bool :=
  d.samples.isEmpty

/-- The cells of all rows. -/
def rows (d : Dataset) : List (List String) :=
  d.samples.map (·.cells)

/-- The labels of all rows. -/
def labels (d : Dataset) : List Label :=
  d.samples.map (·.label)

/-- The number of rows with a label. -/
def count (d : Dataset) (label : Label) : Nat :=
  d.samples.countP fun s => s.label == label

/-- The rows at given positions, in that order. -/
def subset (d : Dataset) (indices : List Nat) : Dataset :=
  let samples := d.samples.toArray
  { d with samples := indices.filterMap fun i => samples[i]? }

/-! ## Shuffling and splitting -/

/-- The rows in random order. -/
def shuffle (d : Dataset) (seed : UInt64) : Dataset :=
  { d with samples := ((Generator.ofSeed seed).shuffle d.samples).1 }

/-- The rows of one label in random order. -/
def members (d : Dataset) (label : Label) (g : Generator) : List Sample × Generator :=
  g.shuffle (d.samples.filter fun s => s.label == label)

/-- How many of `n` rows are held out. -/
def heldOut {α : Type} [Scalar α] (fraction : α) (n : Nat) : Nat :=
  Scalar.roundNat ((n : α) * fraction)

/-- Training and test rows: of each label the given fraction, rounded, is held out for testing,
and both sides are shuffled. -/
def split {α : Type} [Scalar α] (d : Dataset) (fraction : α) (seed : UInt64) : Dataset × Dataset :=
  let g := Generator.ofSeed seed
  let (negatives, g) := d.members .negative g
  let (positives, g) := d.members .positive g
  let n := heldOut fraction negatives.length
  let p := heldOut fraction positives.length
  let (train, g) := g.shuffle (negatives.drop n ++ positives.drop p)
  let (test, _) := g.shuffle (negatives.take n ++ positives.take p)
  (⟨d.header, train⟩, ⟨d.header, test⟩)

/-! ## Encoding -/

/-- A row as a lead under the names of the header. -/
def leadOf (d : Dataset) (cells : List String) : Lead :=
  Lead.ofColumns (d.header.zip cells)

/-- The row at a position as a lead. -/
def lead? (d : Dataset) (i : Nat) : Option Lead :=
  d.samples[i]?.map fun s => d.leadOf s.cells

/-- The vocabulary of the table. -/
def vocabulary (d : Dataset) (schema : Schema) : Vocabulary :=
  Vocabulary.derive d.header d.rows schema

/-- All rows encoded over a vocabulary. -/
def matrix {α : Type} [Scalar α] (d : Dataset) (v : Vocabulary) : List (Array α) :=
  d.samples.map fun s => v.encode (d.leadOf s.cells)

end Dataset

end LeadScoring
