import LeadScoring.Text
import Mathlib.Data.List.DropRight
import Mathlib.Data.List.TakeWhile

/-!
# Trimmed texts

Trimming takes the blank characters off both ends of a text.  What is left does not begin or end with
one, so trimming it again changes nothing, and nothing is left exactly of a blank text.

Main results:

- Theorem `Text.trim_trim`: trimming twice is trimming once.
- Theorem `Text.trim_eq_empty_iff`: the texts of which nothing is left.
- Theorem `Text.trim_of_forall`: a text without blank characters stays.
-/

namespace LeadScoring.Text

/-- Trimming drops the blank characters at the beginning and those at the end. -/
theorem trimChars_eq_rdropWhile (cs : List Char) :
    trimChars cs = (cs.dropWhile isBlankChar).rdropWhile isBlankChar :=
  rfl

/-- A beginning of what is left after dropping keeps its first member. -/
theorem dropWhile_of_prefix {p : Char → Bool} {cs ds : List Char} (h : cs <+: ds.dropWhile p) :
    cs.dropWhile p = cs := by
  rw [List.dropWhile_eq_self_iff]
  intro hcs hblank
  have hds : 0 < (ds.dropWhile p).length := hcs.trans_le h.length_le
  apply ds.dropWhile_get_zero_not p hds
  rw [h.getElem hcs] at hblank
  exact hblank

theorem trimChars_trimChars (cs : List Char) : trimChars (trimChars cs) = trimChars cs := by
  have hbegins : trimChars cs <+: cs.dropWhile isBlankChar :=
    List.rdropWhile_prefix isBlankChar _
  rw [trimChars_eq_rdropWhile (trimChars cs), dropWhile_of_prefix hbegins,
    trimChars_eq_rdropWhile, List.rdropWhile_idempotent]

/-- Trimming twice is trimming once. -/
theorem trim_trim (s : String) : trim (trim s) = trim s := by
  rw [trim, trim, String.toList_ofList, trimChars_trimChars]

/-- A text is blank if nothing is left of it when it is trimmed. -/
theorem trim_eq_empty_iff {s : String} : trim s = "" ↔ isBlank s = true := by
  have hchars : trimChars s.toList = [] ↔ ∀ c ∈ s.toList, isBlankChar c = true := by
    rw [trimChars, List.reverse_eq_nil_iff, List.dropWhile_eq_nil_iff]
    constructor
    · intro h c hc
      rw [← List.takeWhile_append_dropWhile (p := isBlankChar) (l := s.toList),
        List.mem_append] at hc
      rcases hc with hc | hc
      · exact List.mem_takeWhile_imp hc
      · exact h c (List.mem_reverse.2 hc)
    · intro h c hc
      exact h c ((List.dropWhile_sublist _).subset (List.mem_reverse.1 hc))
  rw [trim, isBlank, List.all_eq_true, ← hchars, ← String.toList_inj, String.toList_ofList]
  rfl

/-- A text without blank characters stays as it is. -/
theorem trim_of_forall {cs : List Char} (h : ∀ c ∈ cs, isBlankChar c = false) :
    trim (String.ofList cs) = String.ofList cs := by
  have hfirst : cs.dropWhile isBlankChar = cs := by
    rw [List.dropWhile_eq_self_iff]
    intro hcs
    simp [h _ (List.getElem_mem hcs)]
  have hlast : cs.rdropWhile isBlankChar = cs := by
    rw [List.rdropWhile_eq_self_iff]
    intro hcs
    simp [h _ (List.getLast_mem hcs)]
  rw [trim, String.toList_ofList, trimChars_eq_rdropWhile, hfirst, hlast]

end LeadScoring.Text
