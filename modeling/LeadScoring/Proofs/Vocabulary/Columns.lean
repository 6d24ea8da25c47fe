import LeadScoring.Proofs.Table.Visibility
import LeadScoring.Proofs.Text.Trimming
import LeadScoring.Proofs.Vocabulary.Derivation
import Mathlib.Data.List.Sort
import Mathlib.Data.String.Basic

/-!
# Columns of a table

Deriving a vocabulary passes over the cells of each column.  This module says without those passes
which texts a column holds and which kind it has, and what the two passes over names and texts make
of a list: its members once each, in the order of their first occurrence or in increasing order.

Main results:

- Theorem `firstOccurrences_eq_eraseDups`: of repeated names the first is kept.
- Theorem `pairwise_distinctSorted`: sorted texts are in strictly increasing order.
- Definition `Vocabulary.HoldsText` and theorem `Vocabulary.mem_filledCells`: the texts of a column.
- Definition `Vocabulary.HasKind` and theorem `Vocabulary.hasKind_iff`: the kind of a column.
- Theorem `Vocabulary.flatMap_retained`: what the retained columns contribute.
-/

namespace LeadScoring

/-! ## Distinct names and texts -/

/-- The first occurrences among selected names are the selected first occurrences. -/
theorem firstOccurrences_filter (p : String → Bool) (names : List String) :
    firstOccurrences (names.filter p) = (firstOccurrences names).filter p := by
  induction names with
  | nil => rfl
  | cons name names ih =>
    by_cases h : p name = true
    · rw [List.filter_cons_of_pos h, firstOccurrences, ih, firstOccurrences,
        List.filter_cons_of_pos h, List.filter_filter, List.filter_filter]
      congr 2
      funext other
      exact Bool.and_comm _ _
    · rw [List.filter_cons_of_neg h, ih, firstOccurrences, List.filter_cons_of_neg h,
        List.filter_filter]
      congr 1
      funext other
      by_cases hother : other = name
      · simp [hother, h]
      · simp [hother]

/-- Of repeated names the first is kept. -/
theorem firstOccurrences_eq_eraseDups (names : List String) :
    firstOccurrences names = names.eraseDups := by
  induction hlength : names.length using Nat.strong_induction_on generalizing names with
  | h n ih =>
    cases names with
    | nil => rfl
    | cons name names =>
      have hshorter : (names.filter fun other => !other == name).length < n := by
        have hle := List.length_filter_le (fun other => !other == name) names
        rw [List.length_cons] at hlength
        omega
      rw [List.eraseDups_cons, ← ih _ hshorter _ rfl, firstOccurrences_filter]
      rfl

theorem pairwise_insertText {text : String} {texts : List String}
    (h : texts.Pairwise (· < ·)) : (insertText text texts).Pairwise (· < ·) := by
  induction texts with
  | nil => exact List.pairwise_singleton _ _
  | cons head tail ih =>
    obtain ⟨hhead, htail⟩ := List.pairwise_cons.1 h
    unfold insertText
    split_ifs with heq hlt
    · exact h
    · refine List.pairwise_cons.2 ⟨fun other hother => ?_, h⟩
      rcases List.mem_cons.1 hother with rfl | hother
      · exact hlt
      · exact hlt.trans (hhead other hother)
    · have hgt : head < text := lt_of_le_of_ne (not_lt.1 hlt) (Ne.symm heq)
      refine List.pairwise_cons.2 ⟨fun other hother => ?_, ih htail⟩
      rcases mem_insertText.1 hother with rfl | hother
      · exact hgt
      · exact hhead other hother

/-- Sorted texts are in strictly increasing order. -/
theorem pairwise_distinctSorted (texts : List String) :
    (distinctSorted texts).Pairwise (· < ·) := by
  induction texts with
  | nil => exact List.Pairwise.nil
  | cons head tail ih => exact pairwise_insertText ih

theorem Field.isFor_iff {f : Field} {column : String} :
    f.isFor column = true ↔ column ∈ f.lookupKeys := by
  simp only [isFor, lookupKeys, Bool.or_eq_true, beq_iff_eq, List.contains_iff_mem, List.mem_append,
    List.mem_singleton]
  rw [or_comm, eq_comm]

namespace Vocabulary

variable {header : List String} {rows : List (List String)} {schema : Schema}

/-! ## Columns -/

/-- A column of a table holds a text if this is the trimmed cell of some row, blank cells aside. -/
def HoldsText (rows : List (List String)) (i : ℕ) (text : String) : Prop :=
  text ≠ "" ∧ ∃ row ∈ rows, ∃ cell, row[i]? = some cell ∧ Text.trim cell = text

theorem HoldsText.trim_eq {i : ℕ} {text : String} (h : HoldsText rows i text) :
    Text.trim text = text := by
  obtain ⟨-, _, _, cell, _, rfl⟩ := h
  exact Text.trim_trim cell

/-- The filled cells of a column are the texts that it holds. -/
theorem mem_filledCells {i : ℕ} {text : String} :
    text ∈ filledCells rows i ↔ HoldsText rows i text := by
  simp [filledCells, HoldsText, and_comm]

/-- The kind of a column: that of the first declared field that is meant by it, and for a column
without one numeric if all its texts read as numbers, categorical otherwise. -/
inductive HasKind (schema : Schema) (rows : List (List String)) (i : ℕ) (column : String) :
    FieldKind → Prop
  | declared {before after : List Field} {f : Field}
      (fields_eq : schema.fields = before ++ f :: after)
      (first : ∀ g ∈ before, column ∉ g.lookupKeys) (mem : column ∈ f.lookupKeys) :
      HasKind schema rows i column f.kind
  | numeric (undeclared : ∀ f ∈ schema.fields, column ∉ f.lookupKeys)
      (numbers : ∀ text, HoldsText rows i text → (Numeral.readFloat? text).isSome = true) :
      HasKind schema rows i column .numeric
  | categorical (undeclared : ∀ f ∈ schema.fields, column ∉ f.lookupKeys) {text : String}
      (holds : HoldsText rows i text) (refused : Numeral.readFloat? text = none) :
      HasKind schema rows i column .categorical

/-- A column has no declared field if it is a key of none. -/
theorem fieldFor?_eq_none_iff {column : String} :
    schema.fieldFor? column = none ↔ ∀ f ∈ schema.fields, column ∉ f.lookupKeys := by
  simp [Schema.fieldFor?, Field.isFor_iff]

/-- The field of a column is the first one that it is a key of. -/
theorem fieldFor?_eq_some_iff {column : String} {f : Field} :
    schema.fieldFor? column = some f ↔ column ∈ f.lookupKeys ∧ ∃ before after,
      schema.fields = before ++ f :: after ∧ ∀ g ∈ before, column ∉ g.lookupKeys := by
  simp [Schema.fieldFor?, List.find?_eq_some_iff_append, Field.isFor_iff, ← Bool.not_eq_true]

/-- The field of a column has the column's kind. -/
theorem hasKind_iff {i : ℕ} {column : String} {kind : FieldKind} :
    HasKind schema rows i column kind ↔
      (fieldOfColumn schema column (filledCells rows i)).kind = kind := by
  unfold fieldOfColumn
  cases hfield : schema.fieldFor? column with
  | some f =>
    obtain ⟨hmem, before, after, hfields, hfirst⟩ := fieldFor?_eq_some_iff.1 hfield
    constructor
    · intro h
      cases h with
      | declared fields_eq first mem =>
        have hsame := fieldFor?_eq_some_iff.2 ⟨mem, _, _, fields_eq, first⟩
        rw [hfield] at hsame
        cases hsame
        rfl
      | numeric undeclared | categorical undeclared =>
        have hnone := fieldFor?_eq_none_iff.2 undeclared
        rw [hfield] at hnone
        cases hnone
    · rintro rfl
      have hkind : HasKind schema rows i column f.kind := .declared hfields hfirst hmem
      exact hkind
  | none =>
    have hundeclared := fieldFor?_eq_none_iff.1 hfield
    have hnumbers : ((filledCells rows i).all fun cell => (Numeral.readFloat? cell).isSome) = true ↔
        ∀ text, HoldsText rows i text → (Numeral.readFloat? text).isSome = true := by
      simp [mem_filledCells]
    dsimp only [inferKind]
    constructor
    · intro h
      cases h with
      | declared fields_eq first mem =>
        exact absurd mem (hundeclared _ (fields_eq ▸ by simp))
      | numeric _ numbers => exact if_pos (hnumbers.2 numbers)
      | categorical _ holds refused =>
        refine if_neg fun hall => ?_
        have hsome := hnumbers.1 hall _ holds
        rw [refused] at hsome
        cases hsome
    · rintro rfl
      split_ifs with hall
      · exact .numeric hundeclared (hnumbers.1 hall)
      · rw [hnumbers] at hall
        push Not at hall
        obtain ⟨text, holds, hrefused⟩ := hall
        exact .categorical hundeclared holds (by simpa using hrefused)

instance (schema : Schema) (rows : List (List String)) (i : ℕ) (column : String)
    (kind : FieldKind) : Decidable (HasKind schema rows i column kind) :=
  decidable_of_iff _ hasKind_iff.symm

/-- What the retained columns contribute, taken from the header. -/
theorem flatMap_retained {β : Type} (f : Field × List String → List β) :
    (retained header rows schema).flatMap f = header.zipIdx.flatMap fun column =>
      if schema.IsVisible column.1 then
        f (fieldOfColumn schema column.1 (filledCells rows column.2), filledCells rows column.2)
      else [] := by
  rw [retained]
  induction header.zipIdx with
  | nil => rfl
  | cons column columns ih =>
    cases hexcluded : schema.isExcluded column.1 <;>
      simp [Schema.IsVisible, hexcluded, ih]

end Vocabulary

end LeadScoring
