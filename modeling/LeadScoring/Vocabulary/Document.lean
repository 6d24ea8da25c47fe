import LeadScoring.Json.Decode
import LeadScoring.Json.Value
import LeadScoring.Vocabulary.Basic

/-!
# Vocabularies as documents

The JSON form of fields, vocabularies and schemas.  A field without further keys omits them; a
vocabulary that is read drops repeated names.
-/

namespace LeadScoring

open Json (Raw)

variable {α : Type}

namespace FieldKind

/-- The kind's name in documents. -/
def name : FieldKind → String
  | numeric => "numeric"
  | flag => "flag"
  | categorical => "categorical"

/-- The kind of a name. -/
def ofName? (name : String) : Option FieldKind :=
  if name = "numeric" then some numeric
  else if name = "flag" then some flag
  else if name = "categorical" then some categorical
  else none

/-- The kind of a tree: its name, or an object that maps its name to null. -/
def ofRaw? : Raw → Option FieldKind
  | .string spelling => (Json.stringOf? spelling).bind ofName?
  | .object [(key, .null)] => (Json.stringOf? key).bind ofName?
  | _ => none

end FieldKind

namespace Json

/-- An array of strings. -/
def ofStrings (texts : List String) : Json α :=
  array (texts.map string)

end Json

namespace Field

/-- The field as a JSON value. -/
def toJson (f : Field) : Json α :=
  .object
    ([("name", .string f.name), ("kind", .string f.kind.name)] ++
      (if f.aliases.isEmpty then [] else [("aliases", Json.ofStrings f.aliases)]))

/-- The field of a tree. -/
def ofRaw? (r : Raw) : Option Field :=
  match r.fields? ["name", "kind", "aliases"] 1 with
  | some [some name, some kind, aliases] =>
    match name.text?, FieldKind.ofRaw? kind, (aliases.getD (.array [])).items? Raw.text? with
    | some name, some kind, some aliases => some ⟨name, kind, aliases⟩
    | _, _, _ => none
  | _ => none

end Field

namespace Schema

/-- The schema as a JSON value. -/
def toJson (s : Schema) : Json α :=
  .object [("fields", .array (s.fields.map Field.toJson)), ("excluded", Json.ofStrings s.excluded)]

end Schema

namespace Vocabulary

/-- The vocabulary as a JSON value. -/
def toJson (v : Vocabulary) : Json α :=
  .object [("names", Json.ofStrings v.names), ("fields", .array (v.fields.map Field.toJson))]

/-- The vocabulary of a tree. -/
def ofRaw? (r : Raw) : Option Vocabulary :=
  match r.fields? ["names", "fields"] 0 with
  | some [some names, some fields] =>
    match names.items? Raw.text?, fields.items? Field.ofRaw? with
    | some names, some fields => some (ofNames names fields)
    | _, _ => none
  | _ => none

end Vocabulary

end LeadScoring
