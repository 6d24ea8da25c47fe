import LeadScoring.Lead.Signals

/-!
# Fields and schemas

A field says how a column of the training table becomes model inputs.  Numeric and flag fields
write one input named like the column; a categorical field has one indicator input per category.

Main definitions:

- `Field`: a column's name, kind and further keys on incoming leads.
- `Field.produces`: which inputs a field can write.
- `Schema`: declared fields and excluded columns, with the standard export as `Schema.standard`.
-/

namespace LeadScoring

/-- How a column is turned into model inputs. -/
inductive FieldKind where
  | numeric
  | flag
  | categorical
deriving DecidableEq, Repr

/-- A column that feeds the model. -/
structure Field where
  name : String
  kind : FieldKind
  /-- Further keys under which incoming leads may hold the value. -/
  aliases : List String
deriving DecidableEq, Repr

namespace Field

/-- The keys under which a lead may hold the value, the column name last. -/
def lookupKeys (f : Field) : List String :=
  f.aliases ++ [f.name]

/-- The input for a category of the field. -/
def indicator (f : Field) (category : String) : String :=
  f.name ++ "_" ++ category

/-- The category that an input of a categorical field stands for. -/
def categoryOf? (f : Field) (input : String) : Option String :=
  match Text.afterStart? f.name.toList input.toList with
  | some ('_' :: category) => some (String.ofList category)
  | _ => none

/-- Whether encoding this field can write the given input. -/
def produces (f : Field) (input : String) : Bool :=
  match f.kind with
  | .categorical =>
    match f.categoryOf? input with
    | some category => category != ""
    | none => false
  | _ => f.name == input

/-- Whether a column is meant by this field, under its name or one of its keys. -/
def isFor (f : Field) (column : String) : Bool :=
  f.name == column || f.aliases.contains column

/-- The field of a standard fact, its request key being the only further key. -/
def ofStandard (k : StandardKey) (kind : FieldKind) : Field :=
  ⟨k.column, kind, [k.request]⟩

end Field

/-- Declared fields and the columns that never feed the model. -/
structure Schema where
  fields : List Field
  excluded : List String
deriving DecidableEq, Repr

namespace Schema

/-- The schema of the standard export: target and identity columns are excluded. -/
def standard : Schema where
  fields :=
    [.ofStandard .title .categorical,
     .ofStandard .industry .categorical,
     .ofStandard .companySize .categorical,
     .ofStandard .pageViews .numeric,
     .ofStandard .downloads .numeric,
     .ofStandard .webinarAttended .flag]
  excluded := ["Converted", "Name", "Email", "Website"]

/-- Whether a column never feeds the model. -/
def isExcluded (s : Schema) (column : String) : Bool :=
  s.excluded.contains column

/-- The first declared field that is meant by a column. -/
def fieldFor? (s : Schema) (column : String) : Option Field :=
  s.fields.find? fun f => f.isFor column

end Schema

end LeadScoring
