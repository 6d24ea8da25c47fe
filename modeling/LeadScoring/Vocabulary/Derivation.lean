import LeadScoring.Vocabulary.Basic

/-!
# Vocabularies of training tables

The vocabulary of a table follows its columns: first the numeric and flag columns in their order,
then the indicators of every categorical column, one per distinct category in the order of the
texts.  A column that the schema does not declare is numeric if all its cells are blank or read as
numbers, and categorical otherwise.

Main definitions:

- `insertText`, `distinctSorted`: the distinct texts of a list in order.
- `Vocabulary.fieldOfColumn`: the field of a retained column.
- `Vocabulary.derive`: the vocabulary of a table.
-/

namespace LeadScoring

/-! ## Distinct texts in order -/

/-- Puts a text at its place among distinct texts in order. -/
def insertText (text : String) : List String → List String
  | [] => [text]
  | head :: tail =>
    if text = head then head :: tail
    else if text < head then text :: head :: tail
    else head :: insertText text tail

/-- The distinct texts of a list in order. -/
def distinctSorted (texts : List String) : List String :=
  texts.foldr insertText []

namespace Vocabulary

/-! ## Columns -/

/-- The trimmed cells of a column that are not blank; a row may be too short to have one. -/
def filledCells (rows : List (List String)) (column : Nat) : List String :=
  (rows.filterMap fun row => row[column]?.map Text.trim).filter fun cell => cell != ""

/-- The kind of a column that no schema declares. -/
def inferKind (cells : List String) : FieldKind :=
  if cells.all fun cell => (Numeral.readFloat? cell).isSome then .numeric else .categorical

/-- The field of a retained column.  A declared field lends its kind and all its keys but the
column's own name. -/
def fieldOfColumn (schema : Schema) (column : String) (cells : List String) : Field :=
  match schema.fieldFor? column with
  | some declared =>
    ⟨column, declared.kind, declared.lookupKeys.filter fun key => key != column⟩
  | none => ⟨column, inferKind cells, []⟩

/-- The fields of the retained columns with their cells, in the order of the header. -/
def retained (header : List String) (rows : List (List String)) (schema : Schema) :
    List (Field × List String) :=
  header.zipIdx.filterMap fun (column, i) =>
    if schema.isExcluded column then none
    else
      let cells := filledCells rows i
      some (fieldOfColumn schema column cells, cells)

/-- The input of a numeric or flag field. -/
def directInputs : Field × List String → List String
  | (f, _) => if f.kind = .categorical then [] else [f.name]

/-- The inputs of a categorical field, one for each category. -/
def indicatorInputs : Field × List String → List String
  | (f, cells) => if f.kind = .categorical then (distinctSorted cells).map f.indicator else []

/-- The vocabulary of a table. -/
def derive (header : List String) (rows : List (List String)) (schema : Schema) : Vocabulary :=
  let columns := retained header rows schema
  ofNames (columns.flatMap directInputs ++ columns.flatMap indicatorInputs) (columns.map (·.1))

end Vocabulary

end LeadScoring
