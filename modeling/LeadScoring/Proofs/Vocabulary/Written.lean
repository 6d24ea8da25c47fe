import LeadScoring.Proofs.Lead.Texts
import LeadScoring.Proofs.Vocabulary.Encoding

/-!
# Inputs that encoding can write

A field is said to produce an input if the input's name could be one of its own.  For numbers and
flags this is what encoding writes.  The text of a categorical field comes from a lead without blank
characters at its ends, while producing takes whatever follows the underscore: an input whose
category begins or ends with a blank character is produced, and no lead writes it.

Main results:

- Definitions `Vocabulary.Writes`, `Vocabulary.single` and theorems `Vocabulary.encode_single`,
  `Vocabulary.encode_single_of_forall_not`: writing a slot and what it does.
- Theorem `Vocabulary.exists_lead_writes_iff`: the inputs that some lead writes.
- Theorem `Vocabulary.exists_writes_iff`: the inputs that encoding can write, and writes for a lead.
- Theorem `Vocabulary.produces_paddedCategory`: an input that is produced and never written.
-/

namespace LeadScoring

theorem Field.name_mem_lookupKeys (f : Field) : f.name ∈ f.lookupKeys := by
  simp [lookupKeys]

/-! ## Writing a slot -/

namespace Vocabulary

section Writing

variable {α : Type} [Scalar α]

/-- Encoding a lead writes a value into the slot of a name: the name has one, and a field writes the
value under this name. -/
def Writes (v : Vocabulary) (lead : Lead) (name : String) (x : α) : Prop :=
  name ∈ v.names ∧ ∃ f ∈ v.fields, entry? lead f = some (name, x)

/-- The vocabulary of one name and one field. -/
def single (f : Field) (name : String) : Vocabulary :=
  ofNames [name] [f]

variable {f : Field} {name : String} {lead : Lead} {x : α}

/-- The vocabulary of one name and one field writes what the field does. -/
theorem writes_single_iff :
    (single f name).Writes lead name x ↔ entry? lead f = some (name, x) := by
  simp [Writes, single, ofNames]

/-- What is written into the only slot stays there. -/
theorem encode_single (h : (single f name).Writes lead name x) :
    ((single f name).encode lead : Array α) = #[x] := by
  rw [writes_single_iff] at h
  simp [encode, single, ofNames, firstOccurrences, h, set, indexOf?, size]

/-- A slot into which nothing is written is zero. -/
theorem encode_single_of_forall_not (h : ∀ x : α, ¬ (single f name).Writes lead name x) :
    ((single f name).encode lead : Array α) = #[0] := by
  simp only [writes_single_iff] at h
  cases hentry : ( entry? lead f : Option (String × α)) with
  | none => simp [encode, single, ofNames, firstOccurrences, hentry, size]
  | some entry =>
    obtain ⟨other, x⟩ := entry
    have hne : name ≠ other := by
      rintro rfl
      exact h x hentry
    simp [encode, single, ofNames, firstOccurrences, hentry, set, indexOf?, size, hne]

/-- A field that is not categorical writes the input of its name, whatever the lead holds. -/
theorem exists_entry?_iff_of_ne (h : f.kind ≠ .categorical) :
    (∃ x : α, entry? lead f = some (name, x)) ↔ name = f.name := by
  unfold entry?
  cases hkind : f.kind with
  | categorical => exact absurd hkind h
  | numeric | flag => simp [eq_comm (a := name)]

/-- A categorical field writes the indicator of the text that the lead holds. -/
theorem exists_entry?_iff_of_categorical (h : f.kind = .categorical) :
    (∃ x : α, entry? lead f = some (name, x)) ↔
      ∃ text, lead.text? f.lookupKeys = some text ∧ name = f.indicator text := by
  unfold entry?
  rw [h]
  simp [eq_comm]

end Writing

/-- Some lead writes an input exactly if the field produces it and its category, should it stand for
one, has no blank characters at its ends. -/
theorem exists_lead_writes_iff {α : Type} [Scalar α] {f : Field} {name : String} :
    (∃ (lead : Lead) (x : α), (single f name).Writes lead name x) ↔
      f.produces name = true ∧ (f.kind = .categorical →
        ∀ category, name = f.indicator category → Text.trim category = category) := by
  by_cases hkind : f.kind = .categorical
  · have hwrites : (∃ (lead : Lead) (x : α), (single f name).Writes lead name x) ↔
        ∃ text, (text ≠ "" ∧ Text.trim text = text) ∧ name = f.indicator text := by
      simp only [writes_single_iff, exists_entry?_iff_of_categorical hkind,
        ← Lead.exists_text?_iff f.name_mem_lookupKeys]
      exact exists_comm.trans (exists_congr fun text => exists_and_right)
    rw [hwrites, Field.produces_iff_of_categorical hkind]
    constructor
    · rintro ⟨text, ⟨hne, htrim⟩, rfl⟩
      refine ⟨⟨text, hne, rfl⟩, fun _ category heq => ?_⟩
      rw [← f.indicator_inj heq, htrim]
    · rintro ⟨⟨category, hne, hname⟩, htrim⟩
      exact ⟨category, ⟨hne, htrim hkind category hname⟩, hname⟩
  · simp [writes_single_iff, exists_entry?_iff_of_ne hkind, Field.produces_iff_of_ne hkind, hkind]

/-- Which inputs a vocabulary's only field writes, over all leads and for each lead: one that is not
categorical writes that of its name, whatever the lead holds, and a categorical one the indicator of
the text that it reads. -/
theorem exists_writes_iff {α : Type} [Scalar α] (f : Field) (name : String) :
    ((∃ (lead : Lead) (x : α), (single f name).Writes lead name x) ↔
      f.produces name = true ∧ (f.kind = .categorical →
        ∀ category, name = f.indicator category → Text.trim category = category)) ∧
    ∀ lead : Lead,
      (f.kind ≠ .categorical →
        ((∃ x : α, (single f name).Writes lead name x) ↔ name = f.name)) ∧
      (f.kind = .categorical →
        ((∃ x : α, (single f name).Writes lead name x) ↔
          ∃ text, lead.text? f.lookupKeys = some text ∧ name = f.indicator text)) ∧
      (∀ x : α, (single f name).Writes lead name x →
        ((single f name).encode lead : Array α) = #[x]) ∧
      ((∀ x : α, ¬ (single f name).Writes lead name x) →
        ((single f name).encode lead : Array α) = #[0]) := by
  refine ⟨exists_lead_writes_iff, fun lead => ⟨fun hkind => ?_, fun hkind => ?_,
    fun x => encode_single, encode_single_of_forall_not⟩⟩
  · simp only [writes_single_iff]
    exact exists_entry?_iff_of_ne hkind
  · simp only [writes_single_iff]
    exact exists_entry?_iff_of_categorical hkind

/-- An input whose category begins with a blank character is produced, and no lead writes it. -/
theorem produces_paddedCategory :
    (⟨"Title", .categorical, []⟩ : Field).produces "Title_ CTO" = true ∧
      ∀ (lead : Lead) (x : Float),
        ¬ (single ⟨"Title", .categorical, []⟩ "Title_ CTO").Writes lead "Title_ CTO" x := by
  refine ⟨by decide, fun lead x hwrites => ?_⟩
  obtain ⟨text, htext, hname⟩ :=
    (exists_entry?_iff_of_categorical rfl).1 ⟨x, writes_single_iff.1 hwrites⟩
  have htrim := ((Lead.exists_text?_iff (Field.name_mem_lookupKeys _)).1 ⟨lead, htext⟩).2
  have hpadded : " CTO" = text := Field.indicator_inj ⟨"Title", .categorical, []⟩ hname
  rw [← hpadded] at htrim
  exact absurd htrim (by decide)

end Vocabulary

end LeadScoring
