import LeadScoring.Vocabulary.Derivation
import Mathlib.Data.List.Basic

/-!
# Derived vocabularies are produced by their fields

A vocabulary that is derived from a table lists the inputs of the table's own fields, so every name
in it is produced by one of them.  Encoding gives one value for each name.

Main results:

- Theorem `Vocabulary.unproduced?_derive`: no name of a derived vocabulary is without a field.
- Theorem `Vocabulary.size_encode`: encoded leads have the vocabulary's length.
-/

namespace LeadScoring

/-- What follows a text is what the other text has more. -/
theorem Text.afterStart?_eq_some_iff {start text rest : List Char} :
    Text.afterStart? start text = some rest ↔ text = start ++ rest := by
  induction start generalizing text with
  | nil => cases text <;> simp [afterStart?, eq_comm]
  | cons c start ih =>
    cases text with
    | nil => simp [afterStart?]
    | cons d text =>
      by_cases h : c = d
      · simp [afterStart?, h, ih]
      · simp [afterStart?, h, Ne.symm h]

namespace Field

theorem toList_indicator (f : Field) (category : String) :
    (f.indicator category).toList = f.name.toList ++ '_' :: category.toList := by
  simp [indicator]

/-- Different categories have different indicators. -/
theorem indicator_inj (f : Field) {category other : String}
    (h : f.indicator category = f.indicator other) : category = other := by
  rw [← String.toList_inj, toList_indicator, toList_indicator, List.append_cancel_left_eq,
    List.cons.injEq, String.toList_inj] at h
  exact h.2

/-- The inputs that stand for a category are its indicators. -/
theorem categoryOf?_eq_some_iff {f : Field} {input category : String} :
    f.categoryOf? input = some category ↔ input = f.indicator category := by
  constructor
  · intro h
    unfold categoryOf? at h
    split at h
    · rename_i rest hrest
      cases h
      rw [← String.toList_inj, toList_indicator, Text.afterStart?_eq_some_iff.1 hrest,
        String.toList_ofList]
    · cases h
  · rintro rfl
    rw [categoryOf?, Text.afterStart?_eq_some_iff.2 (toList_indicator f category)]
    simp

/-- A field that is not categorical produces the input of its name and no other. -/
theorem produces_iff_of_ne {f : Field} {input : String} (h : f.kind ≠ .categorical) :
    f.produces input = true ↔ input = f.name := by
  unfold produces
  cases hkind : f.kind with
  | categorical => exact absurd hkind h
  | numeric | flag => rw [beq_iff_eq, eq_comm]

/-- A categorical field produces the indicators of all texts but the empty one. -/
theorem produces_iff_of_categorical {f : Field} {input : String} (h : f.kind = .categorical) :
    f.produces input = true ↔ ∃ category, category ≠ "" ∧ input = f.indicator category := by
  unfold produces
  rw [h]
  constructor
  · intro hproduces
    dsimp only at hproduces
    cases hcategory : f.categoryOf? input with
    | none =>
      rw [hcategory] at hproduces
      cases hproduces
    | some category =>
      rw [hcategory] at hproduces
      exact ⟨category, by simpa using hproduces, categoryOf?_eq_some_iff.1 hcategory⟩
  · rintro ⟨category, hne, rfl⟩
    rw [categoryOf?_eq_some_iff.2 rfl]
    simpa using hne

end Field

@[simp]
theorem mem_insertText {text other : String} {texts : List String} :
    other ∈ insertText text texts ↔ other = text ∨ other ∈ texts := by
  induction texts with
  | nil => simp [insertText]
  | cons head tail ih =>
    unfold insertText
    split_ifs with heq hlt
    · simp [heq]
    · simp
    · simp [ih, or_left_comm]

/-- Sorting texts neither invents nor loses any. -/
@[simp]
theorem mem_distinctSorted {text : String} {texts : List String} :
    text ∈ distinctSorted texts ↔ text ∈ texts := by
  induction texts with
  | nil => simp [distinctSorted]
  | cons head tail ih =>
    rw [List.mem_cons, ← ih]
    exact mem_insertText

namespace Vocabulary

/-! ## Derivation -/

theorem ne_empty_of_mem_filledCells {rows : List (List String)} {column : Nat} {cell : String}
    (h : cell ∈ filledCells rows column) : cell ≠ "" := by
  unfold filledCells at h
  simpa using (List.mem_filter.1 h).2

/-- The cells that are kept with a field are not empty. -/
theorem ne_empty_of_mem_retained {header : List String} {rows : List (List String)}
    {schema : Schema} {f : Field} {cells : List String}
    (h : (f, cells) ∈ retained header rows schema) : ∀ cell ∈ cells, cell ≠ "" := by
  unfold retained at h
  obtain ⟨⟨column, i⟩, -, hcolumn⟩ := List.mem_filterMap.1 h
  dsimp only at hcolumn
  split_ifs at hcolumn
  cases hcolumn
  exact fun cell hcell => ne_empty_of_mem_filledCells hcell

/-- No name is unproduced exactly if every name is produced by some field. -/
theorem unproduced?_eq_none_iff {v : Vocabulary} :
    v.unproduced? = none ↔ ∀ name ∈ v.names, ∃ f ∈ v.fields, f.produces name = true := by
  rw [unproduced?, List.find?_eq_none]
  simp

/-- Every name of a derived vocabulary is produced by a field of the table. -/
theorem unproduced?_derive (header : List String) (rows : List (List String)) (schema : Schema) :
    (derive header rows schema).unproduced? = none := by
  rw [unproduced?_eq_none_iff]
  intro name hname
  unfold derive ofNames at hname ⊢
  dsimp only at hname ⊢
  rw [mem_firstOccurrences, List.mem_append] at hname
  rcases hname with hname | hname
  · obtain ⟨⟨f, cells⟩, hcolumn, hname⟩ := List.mem_flatMap.1 hname
    refine ⟨f, List.mem_map_of_mem hcolumn, ?_⟩
    unfold directInputs at hname
    dsimp only at hname
    split_ifs at hname with hkind
    · cases hname
    · rw [List.mem_singleton.1 hname]
      exact (Field.produces_iff_of_ne hkind).2 rfl
  · obtain ⟨⟨f, cells⟩, hcolumn, hname⟩ := List.mem_flatMap.1 hname
    refine ⟨f, List.mem_map_of_mem hcolumn, ?_⟩
    unfold indicatorInputs at hname
    dsimp only at hname
    split_ifs at hname with hkind
    · obtain ⟨category, hcategory, rfl⟩ := List.mem_map.1 hname
      exact (Field.produces_iff_of_categorical hkind).2
        ⟨category, ne_empty_of_mem_retained hcolumn category (mem_distinctSorted.1 hcategory), rfl⟩
    · cases hname

/-! ## Encoding -/

variable {α : Type}

theorem size_set (v : Vocabulary) (values : Array α) (name : String) (x : α) :
    (v.set values name x).size = values.size := by
  unfold set
  split <;> simp

/-- Encoded leads have one value for each name. -/
theorem size_encode [Scalar α] (v : Vocabulary) (lead : Lead) :
    (v.encode lead : Array α).size = v.size := by
  unfold encode
  refine List.foldlRecOn v.fields _ (motive := fun values : Array α => values.size = v.size)
    Array.size_replicate ?_
  intro values hvalues f _
  split
  · rw [size_set, hvalues]
  · exact hvalues

end Vocabulary

end LeadScoring
