import LeadScoring.Proofs.Text.Trimming
import LeadScoring.Proofs.Vocabulary.Encoding
import LeadScoring.Proofs.Vocabulary.Readings

/-!
# One-hot expansion of exported tables

The vocabulary of a table is derived column by column, and its rows are encoded field by field
through lookups by name.  Over the columns of the standard export the two fit together: a row has
one indicator for each category that it names, its numbers and flags in their slots, and nothing
else.

Main results:

- Definitions `Cell.Denotes`, `Cell.IsTruthy`: the number and the truth value of a cell.
- Theorem `Vocabulary.mem_fields_derive_export`: the fields of an exported table are standard ones.
- Theorem `Dataset.reading_leadOf`: what encoding reads from a row for a field.
- Theorem `Vocabulary.initial_of_entry`: the first character of an input tells its field.
- Definition `OneHot` and theorem `Dataset.matrix_oneHot`: the rows of the matrix are one-hot
  expansions.
-/

namespace LeadScoring

/-! ## Cells -/

namespace Cell

/-- The number in a cell: the finite one that its trimmed text reads as, zero if there is none. -/
def Denotes (cell : String) (x : Float) : Prop :=
  (Numeral.readFloat? (Text.trim cell) = some x ∧ Binary64.isFinite x = true) ∨
    (x = 0.0 ∧ ∀ y, Numeral.readFloat? (Text.trim cell) = some y → Binary64.isFinite y = false)

/-- A cell says yes with a word of agreement or with a finite number other than zero. -/
def IsTruthy (cell : String) : Prop :=
  Text.lowerAscii (Text.trim cell) ∈ ["true", "yes", "y"] ∨
    ∃ x, Numeral.readFloat? (Text.trim cell) = some x ∧ Binary64.isFinite x = true ∧
      (x == 0.0) = false

/-- The number of a cell is the one that it denotes. -/
theorem denotes_toNumber (cell : String) : Denotes cell (Value.toNumber (.string cell)) := by
  unfold Denotes Value.toNumber Value.float?
  dsimp only
  cases hread : Numeral.readFloat? (Text.trim cell) with
  | none => exact Or.inr ⟨rfl, by simp⟩
  | some x =>
    dsimp only
    split_ifs with hfinite
    · exact Or.inl ⟨rfl, hfinite⟩
    · exact Or.inr ⟨rfl, by simpa using hfinite⟩

/-- The flag of a cell is set exactly if the cell says yes. -/
theorem toFlag_eq_true_iff {cell : String} :
    Value.toFlag (.string cell) = true ↔ IsTruthy cell := by
  unfold IsTruthy Value.toFlag Value.isAgreement Value.toNumber Value.float?
  dsimp only
  rw [Bool.or_eq_true]
  refine or_congr (by simp [or_assoc]) ?_
  cases hread : Numeral.readFloat? (Text.trim cell) with
  | none => exact iff_of_false (by decide) (by simp)
  | some x =>
    dsimp only
    split_ifs with hfinite
    · simp [hfinite, bne]
    · exact iff_of_false (by decide) (by simp [hfinite])

/-- A blank cell denotes zero and is not truthy. -/
theorem of_isBlank {cell : String} (h : Text.isBlank cell = true) :
    Denotes cell 0.0 ∧ ¬ IsTruthy cell := by
  have hread : Numeral.readFloat? "" = none := by decide
  have hword : Text.lowerAscii "" ∉ ["true", "yes", "y"] := by decide
  rw [Denotes, IsTruthy, Text.trim_eq_empty_iff.2 h, hread]
  simp [hword]

end Cell

/-! ## Columns of the export -/

/-- The columns of the standard export. -/
def Schema.exportColumns : List String :=
  ["Name", "Email", "Website", "Title", "Industry", "Company Size", "Page Views", "Downloads",
   "Webinar Attended", "Converted"]

/-- The first character of a name. -/
def Text.initial (name : String) : Option Char :=
  name.toList.head?

namespace Schema

/-- A column of the export is excluded or that of a declared field. -/
theorem export_cases :
    ∀ column ∈ exportColumns, standard.isExcluded column = true ∨
      ∃ f ∈ standard.fields, f.name = column := by
  decide

/-- The further keys of declared fields are no columns of the export. -/
theorem notMem_exportColumns_of_mem_aliases :
    ∀ f ∈ standard.fields, ∀ key ∈ f.aliases, key ∉ exportColumns := by
  decide

/-- The names of declared fields begin with different characters. -/
theorem eq_of_initial_eq :
    ∀ f ∈ standard.fields, ∀ g ∈ standard.fields,
      Text.initial f.name = Text.initial g.name → f = g := by
  decide

theorem initial_isSome : ∀ f ∈ standard.fields, (Text.initial f.name).isSome = true := by
  decide

/-- The declared fields are those of the standard facts. -/
theorem exists_ofStandard_eq :
    ∀ f ∈ standard.fields, ∃ fact kind, f = Field.ofStandard fact kind := by
  intro f hf
  simp only [standard, List.mem_cons, List.not_mem_nil, or_false] at hf
  rcases hf with rfl | rfl | rfl | rfl | rfl | rfl <;> exact ⟨_, _, rfl⟩

end Schema

namespace Vocabulary

variable {header : List String} {rows : List (List String)} {f : Field}

/-- The field of a column that bears the name of a declared field is that field. -/
theorem fieldOfColumn_eq_self (hf : f ∈ Schema.standard.fields) (cells : List String) :
    fieldOfColumn .standard f.name cells = f := by
  obtain ⟨fact, kind, rfl⟩ := Schema.exists_ofStandard_eq f hf
  exact (fieldOfColumn_standard hf cells).1

/-- The fields of an exported table are the declared ones of its columns. -/
theorem mem_fields_derive_export (hheader : ∀ column ∈ header, column ∈ Schema.exportColumns) :
    f ∈ (derive header rows .standard).fields ↔
      f ∈ Schema.standard.fields ∧ f.name ∈ header := by
  rw [mem_fields_derive]
  constructor
  · rintro ⟨i, column, hi, hvisible, rfl⟩
    have hcolumn := List.mem_of_getElem? hi
    rcases Schema.export_cases column (hheader column hcolumn) with hexcluded | ⟨f, hf, rfl⟩
    · exact absurd (hvisible.symm.trans hexcluded) Bool.false_ne_true
    · rw [fieldOfColumn_eq_self hf]
      exact ⟨hf, hcolumn⟩
  · rintro ⟨hf, hname⟩
    obtain ⟨i, hi⟩ := List.mem_iff_getElem?.1 hname
    refine ⟨i, f.name, hi, ?_, (fieldOfColumn_eq_self hf _).symm⟩
    exact Schema.separated_standard f hf f.name (by simp [Field.lookupKeys])

/-- The inputs of an exported table: the names of its columns that are not categorical, and for the
others the indicators of their filled cells. -/
theorem mem_names_derive_export (hheader : ∀ column ∈ header, column ∈ Schema.exportColumns)
    {name : String} :
    name ∈ (derive header rows .standard).names ↔ ∃ f ∈ Schema.standard.fields,
      ∃ i : Nat, header[i]? = some f.name ∧
        if f.kind = .categorical then ∃ category ∈ filledCells rows i, name = f.indicator category
        else name = f.name := by
  have hcolumns : name ∈ (derive header rows .standard).names ↔
      ∃ column ∈ retained header rows .standard,
        if column.1.kind = .categorical then
          ∃ category ∈ column.2, name = column.1.indicator category
        else name = column.1.name := by
    simp only [derive, ofNames, mem_firstOccurrences, List.mem_append, List.mem_flatMap,
      ← exists_or, ← and_or_left]
    refine exists_congr fun column => and_congr_right fun _ => ?_
    by_cases hkind : column.1.kind = .categorical <;>
      simp [directInputs, indicatorInputs, hkind, eq_comm]
  rw [hcolumns]
  constructor
  · rintro ⟨_, hretained, hname⟩
    obtain ⟨i, column, hi, hvisible, rfl⟩ := mem_retained.1 hretained
    have hcolumn := List.mem_of_getElem? hi
    rcases Schema.export_cases column (hheader column hcolumn) with hexcluded | ⟨f, hf, rfl⟩
    · exact absurd (hvisible.symm.trans hexcluded) Bool.false_ne_true
    · rw [fieldOfColumn_eq_self hf] at hname
      exact ⟨f, hf, i, hi, hname⟩
  · rintro ⟨f, hf, i, hi, hname⟩
    have hvisible := Schema.separated_standard f hf f.name (by simp [Field.lookupKeys])
    refine ⟨_, mem_retained.2 ⟨i, f.name, hi, hvisible, rfl⟩, ?_⟩
    rw [fieldOfColumn_eq_self hf]
    exact hname

/-- An input of a category begins with the letter of its column. -/
theorem initial_indicator (hf : f ∈ Schema.standard.fields) (category : String) :
    Text.initial (f.indicator category) = Text.initial f.name := by
  obtain ⟨c, hc⟩ := Option.isSome_iff_exists.1 (Schema.initial_isSome f hf)
  unfold Text.initial at hc ⊢
  rw [Field.toList_indicator, List.head?_append, hc, Option.some_or]

/-- The first character of an input tells the field that has written it. -/
theorem initial_of_entry {lead : Lead} {name : String} {x : Float}
    (hf : f ∈ Schema.standard.fields) (h : entry? lead f = some (name, x)) :
    Text.initial name = Text.initial f.name := by
  unfold entry? at h
  split at h
  · cases h
    rfl
  · cases h
    rfl
  · obtain ⟨category, -, hentry⟩ := Option.map_eq_some_iff.1 h
    cases hentry
    exact initial_indicator hf category

section Inputs

variable (hheader : ∀ column ∈ header, column ∈ Schema.exportColumns)
  (hf : f ∈ Schema.standard.fields) {name : String}
  (hname : name ∈ (derive header rows .standard).names)
  (hinitial : Text.initial name = Text.initial f.name)

include hheader hf hname hinitial

/-- An input that begins like a field is one of this field. -/
theorem exists_column_of_initial :
    ∃ i : Nat, header[i]? = some f.name ∧
      if f.kind = .categorical then ∃ category ∈ filledCells rows i, name = f.indicator category
      else name = f.name := by
  obtain ⟨g, hg, i, hi, hinput⟩ := (mem_names_derive_export hheader).1 hname
  have hsame : Text.initial name = Text.initial g.name := by
    split_ifs at hinput
    · obtain ⟨category, -, rfl⟩ := hinput
      exact initial_indicator hg category
    · rw [hinput]
  obtain rfl := Schema.eq_of_initial_eq f hf g hg (hinitial.symm.trans hsame)
  exact ⟨i, hi, hinput⟩

/-- No other field writes an input that begins like a field. -/
theorem get?_encode_of_initial (lead : Lead) :
    (∀ x : Float, entry? lead f = some (name, x) →
      (derive header rows .standard).get? ((derive header rows .standard).encode lead) name =
        some x) ∧
    ((∀ x : Float, entry? lead f ≠ some (name, x)) →
      (derive header rows .standard).get? ((derive header rows .standard).encode lead) name =
        some (0.0 : Float)) := by
  have honly : ∀ g ∈ (derive header rows .standard).fields, ∀ x : Float,
      entry? lead g = some (name, x) → g = f := by
    intro g hg x hwritten
    have hg := ((mem_fields_derive_export hheader).1 hg).1
    exact Schema.eq_of_initial_eq g hg f hf ((initial_of_entry hg hwritten).symm.trans hinitial)
  constructor
  · intro x hentry
    obtain ⟨i, hi, -⟩ := exists_column_of_initial hheader hf hname hinitial
    have hfield : f ∈ (derive header rows .standard).fields :=
      (mem_fields_derive_export hheader).2 ⟨hf, List.mem_of_getElem? hi⟩
    exact get?_encode_of_entry hfield hname hentry honly
  · intro hnone
    refine get?_encode_of_forall_ne hname fun g hg x hwritten => ?_
    obtain rfl := honly g hg x hwritten
    exact hnone x hwritten

end Inputs

end Vocabulary

/-! ## Rows as leads -/

section Rows

variable {columns : List (String × String)} {name cell : String}

theorem filter_key_eq_nil (h : name ∉ columns.map Prod.fst) :
    columns.filter (fun m => m.1 == name) = [] := by
  rw [List.filter_eq_nil_iff]
  rintro ⟨other, text⟩ hmem hother
  obtain rfl : other = name := by simpa using hother
  exact h (List.mem_map_of_mem hmem)

/-- Distinct columns have one cell each. -/
theorem filter_key_eq_singleton (hnodup : (columns.map Prod.fst).Nodup)
    (h : (name, cell) ∈ columns) : columns.filter (fun m => m.1 == name) = [(name, cell)] := by
  induction columns with
  | nil => cases h
  | cons column columns ih =>
    rw [List.map_cons, List.nodup_cons] at hnodup
    rcases List.mem_cons.1 h with rfl | h
    · simp [filter_key_eq_nil hnodup.1]
    · have hne : column.1 ≠ name := by
        rintro rfl
        exact hnodup.1 (List.mem_map.2 ⟨_, h, rfl⟩)
      simp [hne, ih hnodup.2 h]

namespace Lead

/-- A lead of cells holds the last one with a name. -/
theorem get?_ofColumns (columns : List (String × String)) (name : String) :
    (ofColumns columns).get? name =
      ((columns.filter fun m => m.1 == name).getLast?).map fun m => .string m.2 := by
  rw [ofColumns, get?, Json.findMember?_sortMembers, List.filter_map, List.getLast?_map,
    Option.map_map]
  rfl

/-- A row of an exported table has no request keys, so a lookup for a declared field finds the cell
of its column unless it is blank. -/
theorem lookup?_ofColumns {f : Field} (hf : f ∈ Schema.standard.fields)
    (hexport : ∀ column ∈ columns.map Prod.fst, column ∈ Schema.exportColumns)
    (hnodup : (columns.map Prod.fst).Nodup) (h : (f.name, cell) ∈ columns) :
    (ofColumns columns).lookup? f.lookupKeys =
      if Text.isBlank cell then none else some (.string cell) := by
  have haliases : f.aliases.findSome? (ofColumns columns).held? = none := by
    rw [List.findSome?_eq_none_iff]
    intro key hkey
    have hmissing : key ∉ columns.map Prod.fst := fun hmem =>
      Schema.notMem_exportColumns_of_mem_aliases f hf key hkey (hexport key hmem)
    rw [held?, get?_ofColumns, filter_key_eq_nil hmissing]
    rfl
  have hheld : (ofColumns columns).get? f.name = some (.string cell) := by
    rw [get?_ofColumns, filter_key_eq_singleton hnodup h]
    rfl
  rw [lookup?_eq_findSome?, Field.lookupKeys, List.findSome?_append, haliases]
  simp only [Option.none_or, List.findSome?_cons, List.findSome?_nil, held?, hheld, Option.filter,
    Value.isBlank]
  by_cases hblank : Text.isBlank cell = true <;> simp [hblank]

/-- What encoding reads from a row of an exported table. -/
theorem reading_ofColumns {f : Field} (hf : f ∈ Schema.standard.fields)
    (hexport : ∀ column ∈ columns.map Prod.fst, column ∈ Schema.exportColumns)
    (hnodup : (columns.map Prod.fst).Nodup) (h : (f.name, cell) ∈ columns) :
    Cell.Denotes cell ((ofColumns columns).number f.lookupKeys) ∧
      ((ofColumns columns).flag f.lookupKeys = true ↔ Cell.IsTruthy cell) ∧
      (ofColumns columns).text? f.lookupKeys =
        if Text.trim cell = "" then none else some (Text.trim cell) := by
  have hlookup := lookup?_ofColumns hf hexport hnodup h
  rw [number, flag, text?, hlookup]
  by_cases hblank : Text.isBlank cell = true
  · obtain ⟨hzero, hfalse⟩ := Cell.of_isBlank hblank
    rw [if_pos hblank, if_pos (Text.trim_eq_empty_iff.2 hblank)]
    exact ⟨hzero, iff_of_false Bool.false_ne_true hfalse, rfl⟩
  · rw [if_neg hblank, if_neg (mt Text.trim_eq_empty_iff.1 hblank)]
    exact ⟨Cell.denotes_toNumber cell, Cell.toFlag_eq_true_iff, if_neg hblank⟩

end Lead

end Rows

/-! ## Expansions -/

namespace Vocabulary

/-- The indicators of a field. -/
def indicatorsOf (v : Vocabulary) (f : Field) : List String :=
  v.names.filter fun name => (f.categoryOf? name).isSome

/-- The indicators of a field are the inputs that are named for one of its categories. -/
theorem mem_indicatorsOf {v : Vocabulary} {f : Field} {name : String} :
    name ∈ v.indicatorsOf f ↔ name ∈ v.names ∧ ∃ category, name = f.indicator category := by
  rw [indicatorsOf, List.mem_filter, Option.isSome_iff_exists]
  simp only [Field.categoryOf?_eq_some_iff]

end Vocabulary

/-- Values are the one-hot expansion of the cells of a row.  A categorical column has one indicator
that is 1, the one of the trimmed cell, or none if the cell is blank; a numeric column has the number
of the cell, a flag column 1 exactly for a truthy cell, and there are no other inputs. -/
structure OneHot (v : Vocabulary) (columns : List (String × String)) (values : Array Float) :
    Prop where
  size_eq : values.size = v.size
  categorical : ∀ f ∈ Schema.standard.fields, f.kind = .categorical →
    ∀ cell, (f.name, cell) ∈ columns →
      (f.indicator (Text.trim cell) ∈ v.indicatorsOf f ↔ Text.trim cell ≠ "") ∧
        ∀ name ∈ v.indicatorsOf f, v.get? values name =
          some (if name = f.indicator (Text.trim cell) then 1.0 else 0.0)
  numeric : ∀ f ∈ Schema.standard.fields, f.kind = .numeric →
    ∀ cell, (f.name, cell) ∈ columns →
      ∃ x, Cell.Denotes cell x ∧ v.get? values f.name = some x
  flag : ∀ f ∈ Schema.standard.fields, f.kind = .flag →
    ∀ cell, (f.name, cell) ∈ columns →
      (Cell.IsTruthy cell → v.get? values f.name = some 1.0) ∧
        (¬ Cell.IsTruthy cell → v.get? values f.name = some 0.0)
  inputs : ∀ name ∈ v.names, ∃ f ∈ Schema.standard.fields, f.name ∈ columns.map Prod.fst ∧
    if f.kind = .categorical then name ∈ v.indicatorsOf f else name = f.name

namespace Dataset

open Vocabulary

variable {d : Dataset} {s : Sample}

/-- The cells of a row under the names of their columns. -/
def columnsOf (d : Dataset) (s : Sample) : List (String × String) :=
  d.header.zip s.cells

/-- A row that is as wide as the header has all of its columns. -/
theorem map_fst_columnsOf (hwidth : s.cells.length = d.header.length) :
    (d.columnsOf s).map Prod.fst = d.header :=
  List.map_fst_zip (le_of_eq hwidth.symm)

/-- The cells of a row that are not blank are filled cells of their columns. -/
theorem trim_mem_filledCells {i : Nat} {cell : String} (hs : s ∈ d.samples)
    (hi : s.cells[i]? = some cell) (hfilled : Text.trim cell ≠ "") :
    Text.trim cell ∈ Vocabulary.filledCells d.rows i := by
  rw [Vocabulary.filledCells, List.mem_filter, List.mem_filterMap]
  exact ⟨⟨s.cells, List.mem_map.2 ⟨s, hs, rfl⟩, by rw [hi]; rfl⟩, by simpa using hfilled⟩

section Row

variable (hexport : ∀ column ∈ d.header, column ∈ Schema.exportColumns) (hnodup : d.header.Nodup)
  (hs : s ∈ d.samples) (hwidth : s.cells.length = d.header.length)
  {f : Field} (hf : f ∈ Schema.standard.fields) {cell : String}
  (hcell : (f.name, cell) ∈ d.columnsOf s)

include hexport hnodup hwidth hf hcell

/-- What encoding reads from a row for a field. -/
theorem reading_leadOf :
    Cell.Denotes cell ((d.leadOf s.cells).number f.lookupKeys) ∧
      ((d.leadOf s.cells).flag f.lookupKeys = true ↔ Cell.IsTruthy cell) ∧
      (d.leadOf s.cells).text? f.lookupKeys =
        if Text.trim cell = "" then none else some (Text.trim cell) := by
  have hnames := map_fst_columnsOf hwidth
  have hread := Lead.reading_ofColumns hf (hnames ▸ hexport) (hnames ▸ hnodup) hcell
  exact hread

omit hnodup hwidth in
/-- A column that is not categorical has an input of its name. -/
theorem name_mem_vocabulary (hkind : f.kind ≠ .categorical) :
    f.name ∈ (d.vocabulary .standard).names := by
  obtain ⟨i, hi⟩ := List.mem_iff_getElem?.1 (List.of_mem_zip hcell).1
  exact (Vocabulary.mem_names_derive_export hexport).2 ⟨f, hf, i, hi, by rw [if_neg hkind]⟩

omit hnodup hwidth in
/-- A categorical column has an indicator for each cell that is not blank. -/
theorem indicator_mem_indicatorsOf_iff (hs : s ∈ d.samples) (hkind : f.kind = .categorical) :
    f.indicator (Text.trim cell) ∈ (d.vocabulary .standard).indicatorsOf f ↔
      Text.trim cell ≠ "" := by
  rw [Vocabulary.mem_indicatorsOf]
  constructor
  · rintro ⟨hname, -⟩
    obtain ⟨i, -, hinput⟩ :=
      Vocabulary.exists_column_of_initial hexport hf hname (Vocabulary.initial_indicator hf _)
    rw [if_pos hkind] at hinput
    obtain ⟨category, hcategory, hsame⟩ := hinput
    rw [f.indicator_inj hsame]
    exact Vocabulary.ne_empty_of_mem_filledCells hcategory
  · intro hfilled
    obtain ⟨i, hi⟩ := List.mem_iff_getElem?.1 hcell
    obtain ⟨hcolumn, hrow⟩ := List.getElem?_zip_eq_some.1 hi
    refine ⟨(Vocabulary.mem_names_derive_export hexport).2 ⟨f, hf, i, hcolumn, ?_⟩, _, rfl⟩
    rw [if_pos hkind]
    exact ⟨_, trim_mem_filledCells hs hrow hfilled, rfl⟩

/-- Of the indicators of a categorical column only that of the trimmed cell is 1. -/
theorem get?_indicator (hs : s ∈ d.samples) (hkind : f.kind = .categorical) {name : String}
    (hname : name ∈ (d.vocabulary .standard).indicatorsOf f) :
    (d.vocabulary .standard).get? ((d.vocabulary .standard).encode (d.leadOf s.cells)) name =
      some (if name = f.indicator (Text.trim cell) then (1.0 : Float) else 0.0) := by
  have htext := (reading_leadOf hexport hnodup hwidth hf hcell).2.2
  have hiff := indicator_mem_indicatorsOf_iff hexport hf hcell hs hkind
  have hlisted := hname
  obtain ⟨hname, category, hcategory⟩ := Vocabulary.mem_indicatorsOf.1 hname
  have hinitial : Text.initial name = Text.initial f.name :=
    hcategory ▸ Vocabulary.initial_indicator hf category
  obtain ⟨hwritten, hunwritten⟩ :=
    Vocabulary.get?_encode_of_initial hexport hf hname hinitial (d.leadOf s.cells)
  have hentry : ( entry? (d.leadOf s.cells) f : Option (String × Float)) =
      if Text.trim cell = "" then none else some (f.indicator (Text.trim cell), 1.0) := by
    unfold entry?
    rw [hkind]
    dsimp only
    rw [htext]
    split_ifs <;> rfl
  by_cases hsame : name = f.indicator (Text.trim cell)
  · rw [if_pos hsame]
    apply hwritten
    rw [hentry, if_neg (hiff.1 (hsame ▸ hlisted)), hsame]
  · rw [if_neg hsame]
    apply hunwritten
    intro x hx
    rw [hentry] at hx
    split_ifs at hx
    cases hx
    exact hsame rfl

end Row

/-- The vocabulary of an exported table encodes each of its rows as a one-hot expansion. -/
theorem oneHot_encode (hexport : ∀ column ∈ d.header, column ∈ Schema.exportColumns)
    (hnodup : d.header.Nodup) (hs : s ∈ d.samples) (hwidth : s.cells.length = d.header.length) :
    OneHot (d.vocabulary .standard) (d.columnsOf s)
      ((d.vocabulary .standard).encode (d.leadOf s.cells)) := by
  constructor
  · exact Vocabulary.size_encode _ _
  · intro f hf hkind cell hcell
    exact ⟨indicator_mem_indicatorsOf_iff hexport hf hcell hs hkind, fun name hname =>
      get?_indicator hexport hnodup hwidth hf hcell hs hkind hname⟩
  · intro f hf hkind cell hcell
    have hname := name_mem_vocabulary hexport hf hcell (by simp [hkind])
    refine ⟨_, (reading_leadOf hexport hnodup hwidth hf hcell).1, ?_⟩
    apply (Vocabulary.get?_encode_of_initial hexport hf hname rfl _).1
    unfold entry?
    rw [hkind]
    rfl
  · intro f hf hkind cell hcell
    have hname := name_mem_vocabulary hexport hf hcell (by simp [hkind])
    have hflag := (reading_leadOf hexport hnodup hwidth hf hcell).2.1
    have hvalue := (Vocabulary.get?_encode_of_initial hexport hf hname rfl (d.leadOf s.cells)).1 _
      (by unfold entry?; rw [hkind])
    constructor
    · intro htrue
      rw [if_pos (hflag.2 htrue)] at hvalue
      exact hvalue
    · intro hfalse
      rw [if_neg (mt hflag.1 hfalse)] at hvalue
      exact hvalue
  · intro name hname
    obtain ⟨f, hf, i, hi, hinput⟩ := (Vocabulary.mem_names_derive_export hexport).1 hname
    refine ⟨f, hf, ?_, ?_⟩
    · rw [columnsOf, List.map_fst_zip (le_of_eq hwidth.symm)]
      exact List.mem_of_getElem? hi
    · split_ifs at hinput ⊢
      · obtain ⟨category, -, rfl⟩ := hinput
        exact Vocabulary.mem_indicatorsOf.2 ⟨hname, category, rfl⟩
      · exact hinput

/-- Every row of the matrix of an exported table is a one-hot expansion. -/
theorem matrix_oneHot (d : Dataset) (hexport : ∀ column ∈ d.header, column ∈ Schema.exportColumns)
    (hnodup : d.header.Nodup) (hwidth : ∀ s ∈ d.samples, s.cells.length = d.header.length) :
    List.Forall₂ (fun s values => OneHot (d.vocabulary .standard) (d.columnsOf s) values) d.samples
      (d.matrix (d.vocabulary .standard)) := by
  rw [matrix, List.forall₂_map_right_iff, List.forall₂_same]
  exact fun s hs => oneHot_encode hexport hnodup hs (hwidth s hs)

/-- An exported table with blank cells, cells that are not trimmed and numbers that are not
finite. -/
def guestTable : Dataset where
  header := ["Company Size", "Webinar Attended", "Converted", "Page Views", "Name", "Title"]
  samples :=
    [⟨["SMB ", " YES", "1", "-0", "Ann", "CTO"], .positive⟩,
     ⟨["", "nan", "0", "1e400", "Bob", " CTO\t"], .negative⟩,
     ⟨["Enterprise", "0.5", "0", " 7", "", "SMB"], .negative⟩]

/-- A table of guests and its one-hot rows. -/
theorem matrix_oneHot_guestTable :
    (∀ column ∈ guestTable.header, column ∈ Schema.exportColumns) ∧ guestTable.header.Nodup ∧
      (∀ s ∈ guestTable.samples, s.cells.length = guestTable.header.length) ∧
      List.Forall₂ (fun s values =>
          OneHot (guestTable.vocabulary .standard) (guestTable.columnsOf s) values)
        guestTable.samples (guestTable.matrix (guestTable.vocabulary .standard)) ∧
      guestTable.matrix (guestTable.vocabulary .standard) =
        [#[1.0, -0.0, 0.0, 1.0, 1.0, 0.0], #[0.0, 0.0, 0.0, 0.0, 1.0, 0.0],
         #[1.0, 7.0, 1.0, 0.0, 0.0, (1.0 : Float)]] := by
  have hexport : ∀ column ∈ guestTable.header, column ∈ Schema.exportColumns := by decide
  have hnodup : guestTable.header.Nodup := by decide
  have hwidth : ∀ s ∈ guestTable.samples, s.cells.length = guestTable.header.length := by decide
  exact ⟨hexport, hnodup, hwidth, matrix_oneHot guestTable hexport hnodup hwidth,
    by decide +kernel⟩

end Dataset

end LeadScoring
