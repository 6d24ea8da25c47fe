import Mathlib.Data.List.Perm.Basic
import Mathlib.Data.Real.Basic

/-!
# The two sides of a threshold

Rows have a key, and a threshold parts them into those whose key is at most the threshold and those
whose key is above it.  When the rows are sorted by their keys the first part comes before the second
one, and a threshold with rows on both sides lies between two neighbours.

Main results:

- Definitions `rowsUpTo`, `rowsBeyond`: the two sides.
- Theorem `rowsUpTo_append_rowsBeyond`: sorted rows are their two sides one after the other.
- Theorems `sides_of_neighbours`, `sides_perm_of_neighbours`: a threshold between two neighbours
  parts the rows there.
- Theorem `exists_neighbours`: every threshold that parts rows lies between two neighbours.
-/

namespace LeadScoring

/-- The rows whose key is at most a threshold. -/
noncomputable def rowsUpTo (key : ℕ → ℝ) (threshold : ℝ) (rows : List ℕ) : List ℕ :=
  rows.filter fun row => decide (key row ≤ threshold)

/-- The rows whose key is above a threshold. -/
noncomputable def rowsBeyond (key : ℕ → ℝ) (threshold : ℝ) (rows : List ℕ) : List ℕ :=
  rows.filter fun row => !decide (key row ≤ threshold)

section Sides

variable {key : ℕ → ℝ} {threshold : ℝ} {rows others sorted lower upper : List ℕ} {row next : ℕ}

theorem rowsUpTo_perm (h : rows.Perm others) :
    (rowsUpTo key threshold rows).Perm (rowsUpTo key threshold others) :=
  h.filter _

theorem rowsBeyond_perm (h : rows.Perm others) :
    (rowsBeyond key threshold rows).Perm (rowsBeyond key threshold others) :=
  h.filter _

theorem rowsUpTo_append (rows others : List ℕ) :
    rowsUpTo key threshold (rows ++ others) =
      rowsUpTo key threshold rows ++ rowsUpTo key threshold others :=
  List.filter_append _ _

theorem rowsBeyond_append (rows others : List ℕ) :
    rowsBeyond key threshold (rows ++ others) =
      rowsBeyond key threshold rows ++ rowsBeyond key threshold others :=
  List.filter_append _ _

/-- The rows that are not on one side are on the other one. -/
theorem length_sub_rowsUpTo (key : ℕ → ℝ) (threshold : ℝ) (rows : List ℕ) :
    rows.length - (rowsUpTo key threshold rows).length =
      (rowsBeyond key threshold rows).length := by
  have hlength := List.length_eq_length_filter_add (l := rows)
    fun row => decide (key row ≤ threshold)
  unfold rowsUpTo rowsBeyond
  omega

/-- A threshold has no row above it exactly if all rows are up to it. -/
theorem rowsBeyond_eq_nil_iff :
    rowsBeyond key threshold rows = [] ↔ rowsUpTo key threshold rows = rows := by
  rw [rowsBeyond, rowsUpTo, List.filter_eq_nil_iff, List.filter_eq_self]
  simp

/-- No row is up to a threshold exactly if all are beyond it. -/
theorem rowsUpTo_eq_nil_iff :
    rowsUpTo key threshold rows = [] ↔ rowsBeyond key threshold rows = rows := by
  rw [rowsBeyond, rowsUpTo, List.filter_eq_nil_iff, List.filter_eq_self]
  simp

/-- All rows stay on the side that all their keys belong to. -/
theorem rowsUpTo_eq_self (h : ∀ row ∈ rows, key row ≤ threshold) :
    rowsUpTo key threshold rows = rows :=
  List.filter_eq_self.2 fun row hrow => decide_eq_true (h row hrow)

/-- A threshold below all keys leaves its own side empty. -/
theorem rowsUpTo_eq_nil (h : ∀ row ∈ rows, threshold < key row) :
    rowsUpTo key threshold rows = [] :=
  List.filter_eq_nil_iff.2 fun row hrow => by simpa using h row hrow

/-! ## Sorted rows -/

/-- Sorted rows begin with those up to a threshold. -/
theorem rowsUpTo_append_rowsBeyond (h : sorted.Pairwise fun row next => key row ≤ key next) :
    rowsUpTo key threshold sorted ++ rowsBeyond key threshold sorted = sorted := by
  induction sorted with
  | nil => rfl
  | cons row sorted ih =>
    rw [List.pairwise_cons] at h
    by_cases hrow : key row ≤ threshold
    · have hparts := ih h.2
      simp only [rowsUpTo, rowsBeyond] at hparts
      simp [rowsUpTo, rowsBeyond, hrow, hparts]
    · have hnone : rowsUpTo key threshold (row :: sorted) = [] := by
        apply rowsUpTo_eq_nil
        intro other hother
        rcases List.mem_cons.1 hother with rfl | hother
        · exact not_le.1 hrow
        · exact (not_le.1 hrow).trans_le (h.1 other hother)
      rw [hnone, rowsUpTo_eq_nil_iff.1 hnone, List.nil_append]

/-- A threshold between two neighbours has the rows up to the first one on one side and the others
on the other side. -/
theorem sides_of_neighbours
    (h : (lower ++ row :: next :: upper).Pairwise fun row next => key row ≤ key next)
    (hlow : key row ≤ threshold) (hhigh : threshold < key next) :
    rowsUpTo key threshold (lower ++ row :: next :: upper) = lower ++ [row] ∧
      rowsBeyond key threshold (lower ++ row :: next :: upper) = next :: upper := by
  have hparts : lower ++ row :: next :: upper = (lower ++ [row]) ++ (next :: upper) := by simp
  rw [hparts] at h ⊢
  rw [List.pairwise_append, List.pairwise_append] at h
  rcases h with ⟨⟨-, -, hlower⟩, hupper, -⟩
  have hupper := (List.pairwise_cons.1 hupper).1
  have hleft : rowsUpTo key threshold (lower ++ [row]) = lower ++ [row] := by
    apply rowsUpTo_eq_self
    intro other hother
    rcases List.mem_append.1 hother with hother | hother
    · exact (hlower other hother row (by simp)).trans hlow
    · rw [List.mem_singleton.1 hother]
      exact hlow
  have hright : rowsUpTo key threshold (next :: upper) = [] := by
    apply rowsUpTo_eq_nil
    intro other hother
    rcases List.mem_cons.1 hother with rfl | hother
    · exact hhigh
    · exact hhigh.trans_le (hupper other hother)
  rw [rowsUpTo_append (lower ++ [row]), rowsBeyond_append (lower ++ [row]), hleft, hright,
    rowsBeyond_eq_nil_iff.2 hleft, rowsUpTo_eq_nil_iff.1 hright, List.append_nil, List.nil_append]
  exact ⟨rfl, rfl⟩

/-- A threshold between two neighbours of the sorted rows parts the rows there. -/
theorem sides_perm_of_neighbours
    (h : (lower ++ row :: next :: upper).Pairwise fun row next => key row ≤ key next)
    (hperm : (lower ++ row :: next :: upper).Perm rows) (hlow : key row ≤ threshold)
    (hhigh : threshold < key next) :
    (rowsUpTo key threshold rows).Perm (lower ++ [row]) ∧
      (rowsBeyond key threshold rows).Perm (next :: upper) := by
  obtain ⟨hupTo, hbeyond⟩ := sides_of_neighbours h hlow hhigh
  constructor
  · rw [← hupTo]
    exact rowsUpTo_perm hperm.symm
  · rw [← hbeyond]
    exact rowsBeyond_perm hperm.symm

/-- A threshold with rows on both sides lies between two neighbours of the sorted rows. -/
theorem exists_neighbours (h : sorted.Pairwise fun row next => key row ≤ key next)
    (hperm : sorted.Perm rows) (hupTo : rowsUpTo key threshold rows ≠ [])
    (hbeyond : rowsBeyond key threshold rows ≠ []) :
    ∃ lower row next upper, sorted = lower ++ row :: next :: upper ∧
      key row ≤ threshold ∧ threshold < key next := by
  have hupTo : rowsUpTo key threshold sorted ≠ [] := fun hnil =>
    hupTo (List.perm_nil.1 (hnil ▸ (rowsUpTo_perm hperm).symm))
  have hbeyond : rowsBeyond key threshold sorted ≠ [] := fun hnil =>
    hbeyond (List.perm_nil.1 (hnil ▸ (rowsBeyond_perm hperm).symm))
  have hparts : rowsUpTo key threshold sorted ++ rowsBeyond key threshold sorted = sorted :=
    rowsUpTo_append_rowsBeyond h
  rcases (List.eq_nil_or_concat _).resolve_left hupTo with ⟨lower, row, hlower⟩
  rcases List.exists_cons_of_ne_nil hbeyond with ⟨next, upper, hupper⟩
  have hrow : row ∈ rowsUpTo key threshold sorted := by simp [hlower]
  have hnext : next ∈ rowsBeyond key threshold sorted := by simp [hupper]
  simp only [rowsUpTo, rowsBeyond, List.mem_filter, Bool.not_eq_true', decide_eq_true_eq,
    decide_eq_false_iff_not, not_le] at hrow hnext
  refine ⟨lower, row, next, upper, ?_, hrow.2, hnext.2⟩
  rw [← hparts, hlower, hupper]
  simp

end Sides

end LeadScoring
