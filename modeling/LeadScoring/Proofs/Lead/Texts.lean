import LeadScoring.Proofs.Json.Neighbours
import LeadScoring.Proofs.Json.Numbers
import LeadScoring.Proofs.Lead.Lookup
import LeadScoring.Proofs.Text.Trimming

/-!
# Texts of leads

A lead is read as a text from strings, which are trimmed, and from numbers and truth values, which
are spelled without blank characters.  So no text of a lead is empty or has a blank character at its
ends, and every other text is one that some lead holds.

Main results:

- Theorem `Json.Number.spell_noBlank`: spellings of numbers have no blank characters.
- Theorem `Value.trim_of_text?`: the text of a value is trimmed.
- Theorem `Lead.exists_text?_iff`: the texts that leads hold.
-/

namespace LeadScoring

/-! ## Values -/

/-- Numbers are spelled without blank characters. -/
theorem Json.Number.spell_noBlank (n : Json.Number Float) :
    n.spell ≠ [] ∧ ∀ c ∈ n.spell, Text.isBlankChar c = false := by
  have hliteral : ∀ {spelling : List Char}, Json.isNumber spelling = true →
      spelling ≠ [] ∧ ∀ c ∈ spelling, Text.isBlankChar c = false := by
    intro spelling h
    refine ⟨Json.ne_nil_of_isNumber h, fun c hc => Bool.eq_false_iff.2 fun hblank => ?_⟩
    have hchar := Json.isNumberChar_of_isNumber h c hc
    exact Json.Scanner.ne_of_isBlankChar hblank (Json.Scanner.toNat_of_isNumberChar hchar) rfl
  cases n with
  | int i => exact hliteral (isNumber_spellInt i)
  | fraction x =>
    by_cases hfinite : Binary64.isFinite x = true
    · exact hliteral (Json.readsBack_of_isFinite hfinite).1
    · -- every number that is not finite is spelled as the word for nothing
      have hnull : Json.FractionText.spell x = ['n', 'u', 'l', 'l'] := by
        change (Layout.json.write x).toList = _
        rw [Layout.write, Bool.eq_false_iff.2 hfinite]
        simp only [Bool.not_false, if_true, Layout.json, ite_self]
        rfl
      rw [spell, hnull]
      simp [Text.isBlankChar, Text.blankRanges]

/-- The text of a value is not empty and has no blank characters at its ends. -/
theorem Value.trim_of_text? {v : Value} {text : String} (h : v.text? = some text) :
    text ≠ "" ∧ Text.trim text = text := by
  cases v with
  | string s =>
    rw [text?] at h
    split_ifs at h with hblank
    cases h
    exact ⟨fun hempty => hblank (Text.trim_eq_empty_iff.1 hempty), Text.trim_trim s⟩
  | number n =>
    obtain ⟨hne, hchars⟩ := n.spell_noBlank
    cases h
    refine ⟨fun hempty => hne ?_, Text.trim_of_forall hchars⟩
    rw [← String.toList_inj, String.toList_ofList] at hempty
    exact hempty
  | bool b =>
    cases h
    cases b <;> decide
  | null | array | object => cases h

/-! ## Leads -/

namespace Lead

/-- A lead with one string. -/
def holding (key text : String) : Lead :=
  ⟨[(key, .string text)]⟩

variable {key text : String} {keys : List String}

/-- A lead with one text holds it under its own key only. -/
theorem held?_holding (hblank : Text.isBlank text = false) (other : String) :
    (holding key text).held? other = if other = key then some (.string text) else none := by
  have hget : (holding key text).get? other =
      if other = key then some (.string text) else none := rfl
  rw [held?, hget]
  split_ifs
  · simp [Value.isBlank, hblank]
  · rfl

/-- A string is found among any keys that include its own, the others holding nothing. -/
theorem lookup?_holding (hkey : key ∈ keys) (hblank : Text.isBlank text = false) :
    (holding key text).lookup? keys = some (.string text) := by
  rw [lookup?_eq_findSome?]
  cases hfind : keys.findSome? (holding key text).held? with
  | none =>
    have hnone := List.findSome?_eq_none_iff.1 hfind key hkey
    rw [held?_holding hblank, if_pos rfl] at hnone
    cases hnone
  | some v =>
    obtain ⟨other, -, hother⟩ := List.exists_of_findSome?_eq_some hfind
    rw [held?_holding hblank] at hother
    split_ifs at hother
    rw [hother]

theorem text?_holding (hkey : key ∈ keys) (hne : text ≠ "") (htrim : Text.trim text = text) :
    (holding key text).text? keys = some text := by
  have hblank : Text.isBlank text = false := by
    rw [Bool.eq_false_iff]
    exact fun hblank => hne (htrim ▸ Text.trim_eq_empty_iff.2 hblank)
  rw [text?, lookup?_holding hkey hblank, Option.bind_some, Value.text?, hblank, htrim]
  rfl

/-- The texts that leads hold under some keys are those that are not empty and have no blank
characters at their ends. -/
theorem exists_text?_iff (hkey : key ∈ keys) :
    (∃ lead : Lead, lead.text? keys = some text) ↔ text ≠ "" ∧ Text.trim text = text := by
  constructor
  · rintro ⟨lead, h⟩
    obtain ⟨v, -, hv⟩ := Option.bind_eq_some_iff.1 h
    exact Value.trim_of_text? hv
  · rintro ⟨hne, htrim⟩
    exact ⟨holding key text, text?_holding hkey hne htrim⟩

end Lead

end LeadScoring
