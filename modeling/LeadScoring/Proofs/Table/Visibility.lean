import LeadScoring.Proofs.Lead.Lookup
import LeadScoring.Proofs.Random
import LeadScoring.Proofs.Related
import LeadScoring.Table.Dataset

/-!
# Columns that nothing looks at

A row becomes a lead with all of its cells, those of excluded columns included.  This module
compares two tables that differ in such cells only: shuffles and splits arrange their rows alike,
they have the same vocabulary, and since no field of it looks up an excluded column, the same
encoded rows.

Main results:

- Definitions `Sample.AgreeOutside`, `Dataset.AgreeOutside`: rows and tables that agree on all
  columns that are not excluded.
- Definition `Schema.Separated` and theorem `Vocabulary.visible_of_mem_derive`: derived fields
  look up no excluded column.
- Theorems `Dataset.AgreeOutside.shuffle`, `Dataset.AgreeOutside.split`: agreement is kept.
- Theorems `Dataset.AgreeOutside.vocabulary_eq`, `Dataset.AgreeOutside.matrix_eq`: what is made of
  such tables is equal.
-/

namespace LeadScoring

/-! ## Schemas -/

namespace Schema

/-- A name that is not excluded. -/
def IsVisible (schema : Schema) (name : String) : Prop :=
  schema.isExcluded name = false

instance (schema : Schema) (name : String) : Decidable (schema.IsVisible name) :=
  inferInstanceAs (Decidable (schema.isExcluded name = false))

/-- No declared field has an excluded column among its keys. -/
def Separated (schema : Schema) : Prop :=
  ∀ f ∈ schema.fields, ∀ key ∈ f.lookupKeys, schema.IsVisible key

instance (schema : Schema) : Decidable schema.Separated :=
  inferInstanceAs (Decidable (∀ f ∈ schema.fields, ∀ key ∈ f.lookupKeys, schema.IsVisible key))

/-- The standard schema has no field with an excluded column. -/
theorem separated_standard : standard.Separated := by
  decide

end Schema

namespace Vocabulary

variable {schema : Schema}

/-- The field of a visible column only looks up visible names. -/
theorem visible_of_mem_lookupKeys (hschema : schema.Separated) {column key : String}
    {cells : List String} (hcolumn : schema.IsVisible column)
    (hkey : key ∈ (fieldOfColumn schema column cells).lookupKeys) : schema.IsVisible key := by
  unfold fieldOfColumn at hkey
  split at hkey
  · rename_i declared hdeclared
    rcases List.mem_append.1 hkey with hkey | hkey
    · have hmember := List.mem_of_find?_eq_some hdeclared
      exact hschema declared hmember key (List.mem_filter.1 hkey).1
    · rw [List.mem_singleton.1 hkey]
      exact hcolumn
  · rw [Field.lookupKeys, List.nil_append, List.mem_singleton] at hkey
    rw [hkey]
    exact hcolumn

/-- The fields of a derived vocabulary only look up visible names. -/
theorem visible_of_mem_derive (hschema : schema.Separated) {header : List String}
    {rows : List (List String)} :
    ∀ f ∈ (derive header rows schema).fields, ∀ key ∈ f.lookupKeys, schema.IsVisible key := by
  intro f hf key hkey
  obtain ⟨⟨f, cells⟩, hretained, rfl⟩ := List.mem_map.1 hf
  obtain ⟨⟨column, i⟩, -, hcolumn⟩ := List.mem_filterMap.1 hretained
  dsimp only at hcolumn
  split_ifs at hcolumn with hexcluded
  cases hcolumn
  exact visible_of_mem_lookupKeys hschema (Bool.eq_false_iff.2 hexcluded) hkey

end Vocabulary

/-! ## Rows -/

/-- Two rows have the same label and, in every column that is not excluded, the same cell. -/
structure Sample.AgreeOutside (schema : Schema) (header : List String) (s s' : Sample) : Prop where
  label : s.label = s'.label
  cells : ∀ (i : Nat) (column : String), header[i]? = some column → schema.IsVisible column →
    s.cells[i]? = s'.cells[i]?

/-- The cells under a key are found column by column. -/
theorem filter_zip_cons (key column : String) (header cells : List String) :
    ((column :: header).zip cells).filter (fun m => m.1 == key) =
      (if column = key then (cells.head?.map fun cell => (column, cell)).toList else []) ++
        (header.zip cells.tail).filter fun m => m.1 == key := by
  cases cells <;> by_cases hcolumn : column = key <;> simp [hcolumn]

/-- Rows that agree in the columns of a name have the same cells under that name. -/
theorem filter_zip_eq {key : String} {header cells cells' : List String}
    (h : ∀ i : Nat, header[i]? = some key → cells[i]? = cells'[i]?) :
    (header.zip cells).filter (fun m => m.1 == key) =
      (header.zip cells').filter fun m => m.1 == key := by
  induction header generalizing cells cells' with
  | nil => rfl
  | cons column header ih =>
    have htail : (header.zip cells.tail).filter (fun m => m.1 == key) =
        (header.zip cells'.tail).filter fun m => m.1 == key := by
      apply ih
      intro i hi
      simpa using h (i + 1) (by simpa using hi)
    rw [filter_zip_cons, filter_zip_cons, htail]
    by_cases hcolumn : column = key
    · have hhead := h 0 (by simp [hcolumn])
      rw [List.head?_eq_getElem?, List.head?_eq_getElem?, hhead]
    · rw [if_neg hcolumn, if_neg hcolumn]

/-- Rows that agree outside the excluded columns are leads that agree on all other keys. -/
theorem Sample.AgreeOutside.leads_agreeOn {schema : Schema} {header : List String} {s s' : Sample}
    (h : s.AgreeOutside schema header s') :
    Lead.AgreeOn schema.IsVisible (Lead.ofColumns (header.zip s.cells))
      (Lead.ofColumns (header.zip s'.cells)) := by
  intro key hkey
  have hcells : (header.zip s.cells).filter (fun m => m.1 == key) =
      (header.zip s'.cells).filter fun m => m.1 == key := by
    apply filter_zip_eq
    intro i hi
    exact h.cells i key hi hkey
  rw [Lead.ofColumns, Lead.ofColumns, Lead.get?, Lead.get?, Json.findMember?_sortMembers,
    Json.findMember?_sortMembers, List.filter_map, List.filter_map]
  exact congrArg (fun columns => ((List.map _ columns).getLast?).map Prod.snd) hcells

/-! ## Tables -/

namespace Dataset

/-- Two tables have one header, and their rows agree outside the excluded columns. -/
structure AgreeOutside (schema : Schema) (d d' : Dataset) : Prop where
  header : d.header = d'.header
  samples : List.Forall₂ (Sample.AgreeOutside schema d.header) d.samples d'.samples

namespace AgreeOutside

variable {schema : Schema} {d d' : Dataset}

theorem size_eq (h : AgreeOutside schema d d') : d.size = d'.size :=
  h.samples.length_eq

theorem isEmpty_eq (h : AgreeOutside schema d d') : d.isEmpty = d'.isEmpty := by
  rw [Bool.eq_iff_iff, isEmpty, isEmpty, List.isEmpty_iff_length_eq_zero,
    List.isEmpty_iff_length_eq_zero, h.samples.length_eq]

theorem labels_eq (h : AgreeOutside schema d d') : d.labels = d'.labels :=
  map_eq_map_of_forall₂ h.samples fun _ _ hrow => hrow.label

/-- Shuffles arrange the rows alike. -/
theorem shuffle (h : AgreeOutside schema d d') (seed : UInt64) :
    AgreeOutside schema (d.shuffle seed) (d'.shuffle seed) :=
  ⟨h.header, (Generator.shuffle_forall₂ h.samples _).1⟩

/-- So do the shuffles of the rows of one label. -/
theorem members (h : AgreeOutside schema d d') (label : Label) (g : Generator) :
    List.Forall₂ (Sample.AgreeOutside schema d.header) (d.members label g).1
      (d'.members label g).1 ∧
      (d.members label g).2 = (d'.members label g).2 := by
  refine Generator.shuffle_forall₂ (List.rel_filter ?_ h.samples) g
  intro s s' hrow
  dsimp only
  rw [hrow.label]

/-- Splits put the same rows on either side. -/
theorem split {α : Type} [Scalar α] (h : AgreeOutside schema d d') (fraction : α) (seed : UInt64) :
    AgreeOutside schema (d.split fraction seed).1 (d'.split fraction seed).1 ∧
      AgreeOutside schema (d.split fraction seed).2 (d'.split fraction seed).2 := by
  obtain ⟨hnegatives, hg⟩ := h.members .negative (Generator.ofSeed seed)
  obtain ⟨hpositives, hg'⟩ := h.members .positive (d.members .negative (Generator.ofSeed seed)).2
  unfold Dataset.split
  dsimp only
  rw [← hg, ← hg', ← hnegatives.length_eq, ← hpositives.length_eq]
  generalize heldOut fraction _ = n
  generalize heldOut fraction _ = p
  generalize (d.members .positive _).2 = g
  obtain ⟨htrain, hg''⟩ := Generator.shuffle_forall₂
    (List.rel_append (List.forall₂_drop n hnegatives) (List.forall₂_drop p hpositives)) g
  rw [← hg'']
  obtain ⟨htest, -⟩ := Generator.shuffle_forall₂
    (List.rel_append (List.forall₂_take n hnegatives) (List.forall₂_take p hpositives))
    (g.shuffle _).2
  exact ⟨⟨h.header, htrain⟩, ⟨h.header, htest⟩⟩

/-! ### What is made of tables -/

/-- A visible column has the same filled cells. -/
theorem filledCells_eq (h : AgreeOutside schema d d') {i : Nat} {column : String}
    (hi : d.header[i]? = some column) (hcolumn : schema.IsVisible column) :
    Vocabulary.filledCells d.rows i = Vocabulary.filledCells d'.rows i := by
  have hcells : d.samples.map (fun s => s.cells[i]?) = d'.samples.map fun s => s.cells[i]? :=
    map_eq_map_of_forall₂ h.samples fun _ _ hrow => hrow.cells i column hi hcolumn
  have hrows : ∀ e : Dataset, e.rows.filterMap (fun row => row[i]?.map Text.trim) =
      (e.samples.map fun s => s.cells[i]?).filterMap (Option.map Text.trim) := by
    intro e
    rw [rows, List.filterMap_map, List.filterMap_map]
    rfl
  rw [Vocabulary.filledCells, Vocabulary.filledCells, hrows, hrows, hcells]

/-- The vocabulary is derived from visible columns only. -/
theorem vocabulary_eq (h : AgreeOutside schema d d') :
    d.vocabulary schema = d'.vocabulary schema := by
  have hretained : Vocabulary.retained d.header d.rows schema =
      Vocabulary.retained d.header d'.rows schema := by
    refine List.filterMap_congr fun ⟨column, i⟩ hmem => ?_
    have hi : d.header[i]? = some column := by
      simpa using List.mem_zipIdx_iff_getElem?.1 hmem
    dsimp only
    split_ifs with hexcluded
    · rfl
    · rw [h.filledCells_eq hi (Bool.eq_false_iff.2 hexcluded)]
  rw [vocabulary, vocabulary, Vocabulary.derive, Vocabulary.derive, hretained, h.header]

/-- Over a vocabulary whose fields look up visible names only, the rows are encoded alike. -/
theorem matrix_eq {α : Type} [Scalar α] (h : AgreeOutside schema d d') {v : Vocabulary}
    (hkeys : ∀ f ∈ v.fields, ∀ key ∈ f.lookupKeys, schema.IsVisible key) :
    (d.matrix v : List (Array α)) = d'.matrix v := by
  refine map_eq_map_of_forall₂ h.samples fun s s' hrow => ?_
  rw [leadOf, leadOf, ← h.header]
  exact Vocabulary.encode_eq_of_holdAlike hrow.leads_agreeOn.holdAlike hkeys

end AgreeOutside

end Dataset

end LeadScoring
