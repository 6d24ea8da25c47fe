import LeadScoring.Workspace.Directory
import Mathlib.Data.List.Basic

/-!
# Files that were written

Writing a file puts its text at the place that its path leads to.  No directory disappears, so every
path that led somewhere still leads there, and reading the path finds what was written.

Main results:

- Theorem `Directory.file?_put`: the text at a place where it was put.
- Theorem `Directory.place?_put`: paths lead where they led before.
- Theorem `Directory.read?_of_update?`: a file that was replaced or made is read back.
-/

namespace LeadScoring.Directory

/-! ## The text of a place -/

/-- The text at a place replaces the one of the first file there. -/
theorem lookup_replaced {files : List (Place × String)} {place : Place}
    (h : files.any (fun entry => entry.1 == place) = true) (text : String) :
    (files.map fun entry => if entry.1 == place then (place, text) else entry).lookup place =
      some text := by
  induction files with
  | nil => cases h
  | cons entry files ih =>
    obtain ⟨p, old⟩ := entry
    rw [List.map_cons]
    by_cases hp : p = place
    · simp [hp]
    · have hother : (place == p) = false := beq_eq_false_iff_ne.2 (Ne.symm hp)
      simp only [List.any_cons, beq_eq_false_iff_ne.2 hp, Bool.false_or] at h
      simp only [beq_eq_false_iff_ne.2 hp, Bool.false_eq_true, if_false, List.lookup_cons, hother]
      exact ih h

/-- The text that was put at a place is found there. -/
theorem file?_put (d : Directory) (place : Place) (text : String) :
    (d.put place text).file? place = some text := by
  unfold put file?
  split_ifs with hthere
  · exact lookup_replaced hthere text
  · have hnone : d.files.lookup place = none := by
      rw [List.lookup_eq_none_iff]
      intro entry hentry
      rw [List.any_eq_true, not_exists] at hthere
      have hne := hthere entry
      simp only [hentry, true_and, beq_iff_eq] at hne
      simpa using Ne.symm hne
    rw [List.lookup_append, hnone]
    simp

/-! ## The place of a path -/

/-- Directories stay directories. -/
theorem isDirectory_put {d : Directory} {p : Place} (h : d.isDirectory p = true) (place : Place)
    (text : String) : (d.put place text).isDirectory p = true := by
  unfold put
  split_ifs
  · have hplaces : ∀ entry : Place × String,
        (if (entry.1 == place) = true then (place, text) else entry).1 = entry.1 := by
      intro entry
      split_ifs with hentry
      · exact (beq_iff_eq.1 hentry).symm
      · rfl
    simpa only [isDirectory, List.any_map, Function.comp_def, hplaces] using h
  · simp only [isDirectory, List.any_append, Bool.or_eq_true] at h ⊢
    rcases h with h | h
    · exact Or.inl h
    · exact Or.inr (Or.inl h)

/-- A walk needs directories on its way, and more of them do no harm. -/
theorem walk_mono {d e : Directory}
    (h : ∀ p, d.isDirectory p = true → e.isDirectory p = true) {names : List String}
    {place target : Place} (hwalk : d.walk place names = some target) :
    e.walk place names = some target := by
  induction names generalizing place with
  | nil => exact hwalk
  | cons name names ih =>
    rw [walk] at hwalk ⊢
    by_cases hdirectory : d.isDirectory place = true
    · simp only [hdirectory, h place hdirectory, Bool.not_true, Bool.false_eq_true,
        if_false] at hwalk ⊢
      split_ifs at hwalk ⊢
      · exact ih hwalk
      · exact ih hwalk
      · exact ih hwalk
    · rw [if_pos (by simpa using hdirectory)] at hwalk
      cases hwalk

/-- A file that is written stands at the place it was written to. -/
theorem place?_put {d : Directory} {path : String} {target : Place}
    (h : d.place? path = some target) (place : Place) (text : String) :
    (d.put place text).place? path = some target := by
  unfold place? at h ⊢
  split_ifs at h ⊢
  exact walk_mono (fun _ hp => isDirectory_put hp place text) h

/-! ## The text of a path -/

/-- What is read from a file that was replaced or made. -/
theorem read?_of_update? {d after : Directory} {path : String} {f : Option String → String}
    (hpath : path ≠ nullDevice) (h : d.update? path f = some after) :
    after.read? path = some (f (d.read? path)) := by
  unfold update? at h
  rw [if_neg hpath] at h
  unfold read?
  rw [if_neg hpath, if_neg hpath]
  cases hplace : d.place? path with
  | none => rw [hplace] at h; cases h
  | some place =>
    rw [hplace] at h
    dsimp only at h
    split_ifs at h
    cases h
    rw [place?_put hplace]
    exact file?_put d place _

end LeadScoring.Directory
