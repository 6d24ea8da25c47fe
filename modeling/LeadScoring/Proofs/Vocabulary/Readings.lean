import LeadScoring.Proofs.Table.Visibility

/-!
# Readings of the standard facts

The rules read a standard fact under its request key first and its column name second.  Encoding
reads a column under the keys of its field, and a column that the standard schema declares may bear
either of the two names: its own name is always the last key of its field.  So a column with the
column name of a fact is read as the rules read the fact, and one with the request key is read in the
opposite order, which shows on leads that hold different values under both keys.

Main results:

- Definitions `Reading`, `Field.reading`, `Signals.readings`: what encoding reads for a field, and
  what the rules read for a fact.
- Theorem `Vocabulary.entry?_eq_input?`: encoding writes what it reads.
- Theorem `Vocabulary.fieldOfColumn_standard`: the fields of declared columns.
- Theorem `Vocabulary.reading_of_declared`: declared columns are read as the rules read their facts,
  except where a column with a request key finds two values.
- Theorem `Vocabulary.reading_titleRequest`: such a column.
-/

namespace LeadScoring

/-! ## Readings -/

/-- What is read from a lead. -/
inductive Reading where
  | number (x : Float)
  | flag (b : Bool)
  | category (text : Option String)

namespace Reading

/-- A lead read as a kind of field under a list of keys. -/
def ofLead (lead : Lead) (keys : List String) : FieldKind → Reading
  | .numeric => number (lead.number keys)
  | .flag => flag (lead.flag keys)
  | .categorical => category (lead.text? keys)

/-- The input that a field writes for what was read, with its value. -/
def input? {α : Type} [Scalar α] (f : Field) : Reading → Option (String × α)
  | number x => some (f.name, Scalar.ofFloat x)
  | flag b => some (f.name, if b then 1 else 0)
  | category text => text.map fun category => (f.indicator category, 1)

/-- A signal depends on what is found under its keys only. -/
theorem ofLead_congr {first second : List String} {lead : Lead}
    (h : lead.lookup? first = lead.lookup? second) (kind : FieldKind) :
    ofLead lead first kind = ofLead lead second kind := by
  cases kind <;> simp only [ofLead, Lead.number, Lead.flag, Lead.text?, h]

end Reading

/-- What encoding reads from a lead for a field. -/
def Field.reading (f : Field) (lead : Lead) : Reading :=
  .ofLead lead f.lookupKeys f.kind

/-- The standard facts with what the rules read for each. -/
def Signals.readings (s : Signals) : List (StandardKey × Reading) :=
  [(.title, .category s.title), (.industry, .category s.industry),
   (.companySize, .category s.companySize), (.pageViews, .number s.pageViews),
   (.downloads, .number s.downloads), (.webinarAttended, .flag s.webinarAttended)]

/-- Encoding writes what it reads. -/
theorem Vocabulary.entry?_eq_input? {α : Type} [Scalar α] (lead : Lead) (f : Field) :
    ( entry? lead f : Option (String × α)) = (f.reading lead).input? f := by
  unfold entry? Field.reading
  cases f.kind <;> rfl

/-- The rules read a fact under its keys, as the standard schema declares it. -/
theorem Signals.exists_field_of_mem_readings {lead : Lead} {fact : StandardKey} {read : Reading}
    (h : (fact, read) ∈ (Signals.ofLead lead).readings) :
    ∃ kind, Field.ofStandard fact kind ∈ Schema.standard.fields ∧
      read = .ofLead lead fact.keys kind := by
  simp only [readings, List.mem_cons, Prod.mk.injEq, List.not_mem_nil, or_false] at h
  rcases h with ⟨rfl, rfl⟩ | ⟨rfl, rfl⟩ | ⟨rfl, rfl⟩ | ⟨rfl, rfl⟩ | ⟨rfl, rfl⟩ | ⟨rfl, rfl⟩
  · exact ⟨.categorical, by decide, rfl⟩
  · exact ⟨.categorical, by decide, rfl⟩
  · exact ⟨.categorical, by decide, rfl⟩
  · exact ⟨.numeric, by decide, rfl⟩
  · exact ⟨.numeric, by decide, rfl⟩
  · exact ⟨.flag, by decide, rfl⟩

/-! ## Two keys -/

namespace Lead

/-- A lead does not hold different values under two keys. -/
def HoldsOne (lead : Lead) (key other : String) : Prop :=
  ∀ v w, lead.held? key = some v → lead.held? other = some w → v = w

/-- Two keys may be tried in either order unless the lead holds different values under them. -/
theorem HoldsOne.lookup?_swap {lead : Lead} {key other : String} (h : lead.HoldsOne key other) :
    lead.lookup? [key, other] = lead.lookup? [other, key] := by
  rw [lookup?_eq_findSome?, lookup?_eq_findSome?]
  simp only [List.findSome?_cons, List.findSome?_nil]
  cases hkey : lead.held? key with
  | none => cases lead.held? other <;> rfl
  | some v =>
    cases hother : lead.held? other with
    | none => rfl
    | some w => rw [h v w hkey hother]

end Lead

/-! ## Declared columns -/

namespace Schema

/-- The keys of a field that the standard schema declares mean no other field. -/
theorem fieldFor?_standard :
    ∀ f ∈ standard.fields, ∀ key ∈ f.lookupKeys, standard.fieldFor? key = some f := by
  decide

/-- No standard field has a key twice. -/
theorem nodup_lookupKeys_standard : ∀ f ∈ standard.fields, f.lookupKeys.Nodup := by
  decide

end Schema

namespace Vocabulary

variable {header : List String} {rows : List (List String)} {schema : Schema}

/-- The retained columns with their fields and cells. -/
theorem mem_retained {column : Field × List String} :
    column ∈ retained header rows schema ↔ ∃ (i : Nat) (name : String),
      header[i]? = some name ∧ schema.IsVisible name ∧
        column = (fieldOfColumn schema name (filledCells rows i), filledCells rows i) := by
  simp only [retained, List.mem_filterMap, Prod.exists, List.mem_zipIdx_iff_getElem?,
    Option.ite_none_left_eq_some, Option.some.injEq]
  constructor
  · rintro ⟨name, i, hi, hvisible, rfl⟩
    exact ⟨i, name, hi, Bool.eq_false_iff.2 hvisible, rfl⟩
  · rintro ⟨i, name, hi, hvisible, rfl⟩
    exact ⟨name, i, hi, Bool.eq_false_iff.1 hvisible, rfl⟩

/-- The fields of a derived vocabulary are those of its retained columns. -/
theorem mem_fields_derive {f : Field} :
    f ∈ (derive header rows schema).fields ↔ ∃ (i : Nat) (name : String),
      header[i]? = some name ∧ schema.IsVisible name ∧
        f = fieldOfColumn schema name (filledCells rows i) := by
  simp only [derive, ofNames, List.mem_map, mem_retained]
  constructor
  · rintro ⟨_, ⟨i, name, hi, hvisible, rfl⟩, rfl⟩
    exact ⟨i, name, hi, hvisible, rfl⟩
  · rintro ⟨i, name, hi, hvisible, rfl⟩
    exact ⟨_, ⟨i, name, hi, hvisible, rfl⟩, rfl⟩

theorem name_fieldOfColumn (schema : Schema) (column : String) (cells : List String) :
    (fieldOfColumn schema column cells).name = column := by
  unfold fieldOfColumn
  split <;> rfl

/-- A declared column has the kind of its field and all keys of it, the column's own name last. -/
theorem fieldOfColumn_of_declared {declared : Field} {column : String}
    (h : schema.fieldFor? column = some declared) (cells : List String) :
    fieldOfColumn schema column cells =
      ⟨column, declared.kind, declared.lookupKeys.filter fun key => key != column⟩ := by
  rw [fieldOfColumn, h]

/-- The field of a column that bears one of the two names of a fact. -/
theorem fieldOfColumn_standard {fact : StandardKey} {kind : FieldKind}
    (h : Field.ofStandard fact kind ∈ Schema.standard.fields) (cells : List String) :
    fieldOfColumn .standard fact.column cells = ⟨fact.column, kind, [fact.request]⟩ ∧
      fieldOfColumn .standard fact.request cells = ⟨fact.request, kind, [fact.column]⟩ := by
  have hfor := Schema.fieldFor?_standard _ h
  have hne : fact.request ≠ fact.column := by
    simpa [Field.ofStandard, Field.lookupKeys] using Schema.nodup_lookupKeys_standard _ h
  constructor
  · rw [fieldOfColumn_of_declared (hfor fact.column (by simp [Field.ofStandard, Field.lookupKeys]))]
    simp [Field.ofStandard, Field.lookupKeys, hne]
  · rw [fieldOfColumn_of_declared (hfor fact.request (by simp [Field.ofStandard, Field.lookupKeys]))]
    simp [Field.ofStandard, Field.lookupKeys, hne.symm]

/-- A column that the standard schema declares has a field, and encoding reads it as the rules read
its fact.  A column with the request key as its name tries its two keys in the opposite order, and is
read alike unless the lead holds different values under them. -/
theorem reading_of_declared (header : List String) (rows : List (List String)) (lead : Lead)
    {fact : StandardKey} {read : Reading} (hread : (fact, read) ∈ (Signals.ofLead lead).readings)
    {column : String} (hcolumn : column ∈ header)
    (hname : column = fact.column ∨ column = fact.request) :
    (∃ f ∈ (derive header rows .standard).fields, f.name = column) ∧
      ∀ f ∈ (derive header rows .standard).fields, f.name = column →
        (column = fact.column → f.lookupKeys = fact.keys ∧ f.reading lead = read ∧
          ( entry? lead f : Option (String × Float)) = read.input? f) ∧
        (column = fact.request → f.lookupKeys = fact.keys.reverse ∧
          (lead.HoldsOne fact.request fact.column → f.reading lead = read ∧
            ( entry? lead f : Option (String × Float)) = read.input? f)) := by
  obtain ⟨kind, hdeclared, rfl⟩ := Signals.exists_field_of_mem_readings hread
  have hvisible : Schema.standard.IsVisible column := by
    apply Schema.separated_standard _ hdeclared
    rcases hname with rfl | rfl <;> simp [Field.ofStandard, Field.lookupKeys]
  constructor
  · obtain ⟨i, hi, hget⟩ := List.getElem_of_mem hcolumn
    exact ⟨_, mem_fields_derive.2 ⟨i, column, List.getElem?_eq_some_iff.2 ⟨hi, hget⟩, hvisible, rfl⟩,
      name_fieldOfColumn _ _ _⟩
  · intro f hf hfname
    obtain ⟨i, other, -, -, rfl⟩ := mem_fields_derive.1 hf
    rw [name_fieldOfColumn] at hfname
    obtain rfl : other = column := hfname
    obtain ⟨hown, hrequest⟩ := fieldOfColumn_standard hdeclared (filledCells rows i)
    constructor
    · rintro rfl
      rw [hown, entry?_eq_input?]
      exact ⟨rfl, rfl, rfl⟩
    · rintro rfl
      rw [hrequest, entry?_eq_input?]
      refine ⟨rfl, fun hone => ?_⟩
      have hread : ( ⟨fact.request, kind, [fact.column]⟩ : Field).reading lead =
          .ofLead lead fact.keys kind :=
        Reading.ofLead_congr hone.lookup?_swap.symm kind
      rw [hread]
      exact ⟨rfl, rfl⟩

/-- A column that bears the request key of the title. -/
def titleHeader : List String :=
  ["title", "Converted"]

def titleRows : List (List String) :=
  [["CTO", "1"], ["Intern", "0"]]

/-- A lead with a title under the column name only. -/
def exportedLead : Lead where
  entries := [("Title", .string " CTO"), ("title", .string " ")]

/-- A title in the column of an export, with a blank request key beside it. -/
theorem reading_of_declared_exportedLead :
    (StandardKey.title, .category (some "CTO")) ∈ (Signals.ofLead exportedLead).readings ∧
      "title" ∈ titleHeader ∧
      ("title" = StandardKey.title.column ∨ "title" = StandardKey.title.request) ∧
      exportedLead.HoldsOne "title" "Title" ∧
      ∃ f ∈ (derive titleHeader titleRows .standard).fields, f.name = "title" ∧
        f.reading exportedLead = .category (some "CTO") := by
  have htitle : (Signals.ofLead exportedLead).title = some "CTO" := by decide +kernel
  have hread : (StandardKey.title, .category (some "CTO")) ∈
      (Signals.ofLead exportedLead).readings := by
    simp [Signals.readings, htitle]
  have hcolumn : "title" ∈ titleHeader := by decide
  have hname : "title" = StandardKey.title.column ∨ "title" = StandardKey.title.request := by decide
  have hone : exportedLead.HoldsOne "title" "Title" := by
    have hblank : exportedLead.held? "title" = none := by
      rw [Lead.held?_eq_none_iff]
      rintro v ⟨⟩
      decide
    intro v w hv
    rw [hblank] at hv
    cases hv
  obtain ⟨⟨f, hf, hfname⟩, hall⟩ :=
    reading_of_declared titleHeader titleRows exportedLead hread hcolumn hname
  exact ⟨hread, hcolumn, hname, hone, f, hf, hfname, (((hall f hf hfname).2 rfl).2 hone).1⟩

/-- A lead with two titles. -/
def twoTitles : Lead where
  entries := [("Title", .string "Intern"), ("title", .string "CTO")]

/-- Over a column that bears the request key of the title, encoding takes the title under the column
name and the rules take the one under the request key. -/
theorem reading_titleRequest :
    let v := derive titleHeader titleRows .standard
    (Signals.ofLead twoTitles).title = some "CTO" ∧
      (∃ f ∈ v.fields, f.name = "title" ∧ f.lookupKeys = ["Title", "title"] ∧
        f.reading twoTitles = .category (some "Intern")) ∧
      v.get? (v.encode twoTitles) "title_CTO" = some (0.0 : Float) ∧
      v.get? (v.encode twoTitles) "title_Intern" = some (1.0 : Float) := by
  have hfields : (derive titleHeader titleRows .standard).fields =
      [⟨"title", .categorical, ["Title"]⟩] := by
    decide +kernel
  refine ⟨by decide +kernel, ?_, by decide +kernel, by decide +kernel⟩
  rw [hfields]
  refine ⟨_, List.mem_singleton.2 rfl, rfl, rfl, ?_⟩
  have htext : twoTitles.text? ["Title", "title"] = some "Intern" := by decide +kernel
  exact congrArg Reading.category htext

end Vocabulary

end LeadScoring
