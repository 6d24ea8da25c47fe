import LeadScoring.Proofs.Forest.Purity

/-!
# Counts that depend on the weights alone

Counts of whole weights are exact as long as no class weighs more than `2 ^ 53`.  So rows of one
table or of two have the same counts if their classes weigh the same, in whatever order they come and
however the weights are shared out among them.

Main results:

- Definition `TrainingTable.Weighs`: rows of positive whole weights that are counted exactly.
- Theorem `TrainingTable.Weighs.countsOf_eq`: equal weights of the classes give equal counts.
- Theorem `TrainingTable.Weighs.gini_le_resolution`: rows of one class are taken for pure.
-/

namespace LeadScoring

open Binary64 (IsWhole toRat)

namespace ClassCounts

variable {c d : ClassCounts Float}

theorem ext_of (h : ∀ label, c.of label = d.of label) : c = d := by
  cases c
  cases d
  exact congrArg₂ ClassCounts.mk (h .negative) (h .positive)

/-- Rows of one class are taken for pure: their shares are not rounded. -/
theorem gini_le_resolution {label : Label} {n : ℕ} (hone : IsWhole (c.of label) n) (hpos : 0 < n)
    (hsmall : n ≤ 2 ^ 53) (hnone : ∀ other ≠ label, c.of other = 0.0) :
    c.gini ≤ Scalar.resolution := by
  have hzero : IsWhole (0.0 : Float) 0 := Binary64.isWhole_zero
  have hvalue : 0 < toRat (c.of label) := by
    rw [hone.toRat_eq]
    exact_mod_cast hpos
  have hwhole := Binary64.div_self_of_pos hone.finite hvalue
  have hpart := Binary64.zero_div_of_pos hone.finite hvalue
  have htotal : c.total = c.of label := by
    cases label with
    | negative =>
      have hsum := hone.add hzero hsmall
      rw [← hnone .positive (by decide)] at hsum
      exact hsum.eq hone hpos
    | positive =>
      have hsum := hzero.add hone (by omega)
      rw [← hnone .negative (by decide), Nat.zero_add] at hsum
      exact hsum.eq hone hpos
  have hnonempty : ¬ c.total ≤ 0 := by
    rw [htotal]
    exact not_le_zero hone hpos
  rw [gini_of_pos hnonempty, htotal]
  cases label with
  | negative =>
    have hother : c.positive = 0.0 := hnone .positive (by decide)
    rw [of] at hwhole hpart ⊢
    rw [hother, hwhole, hpart]
    decide
  | positive =>
    have hother : c.negative = 0.0 := hnone .negative (by decide)
    rw [of] at hwhole hpart ⊢
    rw [hother, hwhole, hpart]
    decide

end ClassCounts

namespace TrainingTable

variable {t u : TrainingTable Float} {w v : ℕ → ℕ} {rows others : List ℕ} {label : Label}

/-- Rows of positive whole weights of which no class weighs more than `2 ^ 53`. -/
structure Weighs (t : TrainingTable Float) (w : ℕ → ℕ) (rows : List ℕ) : Prop where
  whole : ∀ row ∈ rows, IsWhole (t.weight row) (w row)
  pos : ∀ row ∈ rows, 0 < w row
  small : ∀ label, t.weightOf w label rows ≤ 2 ^ 53

/-- The rows that take part may be counted in any order. -/
theorem HasWholeWeights.weighs (h : t.HasWholeWeights w) : t.Weighs w t.weightedRows where
  whole := h.whole
  pos row hrow := weight_pos hrow (h.whole row hrow)
  small := h.small

/-- A class without rows is counted as zero. -/
theorem of_countsOf_of_forall_ne (h : ∀ row ∈ rows, t.label row ≠ label) :
    (t.countsOf rows).of label = 0.0 := by
  induction rows using List.reverseRecOn with
  | nil => cases label <;> rfl
  | append_singleton rows row ih =>
    rw [countsOf_concat, of_addRow, if_neg (h row (by simp))]
    exact ih fun other hother => h other (List.mem_append_left [row] hother)

namespace Weighs

variable (h : t.Weighs w rows)

include h

/-- Some of the rows may be counted in any order if all may. -/
theorem filter (p : ℕ → Bool) : t.Weighs w (rows.filter p) where
  whole row hrow := h.whole row (List.mem_of_mem_filter hrow)
  pos row hrow := h.pos row (List.mem_of_mem_filter hrow)
  small label := (weightOf_filter_le p rows).trans (h.small label)

/-- Rows in another order may be counted in any order. -/
theorem perm (hperm : rows.Perm others) : t.Weighs w others where
  whole row hrow := h.whole row (hperm.mem_iff.2 hrow)
  pos row hrow := h.pos row (hperm.mem_iff.2 hrow)
  small label := (weightOf_perm hperm).ge.trans (h.small label)

/-- Classes that weigh the same have the same counts.  Without any weight there are no rows, and
every other whole number is one double only. -/
theorem countsOf_eq (hu : u.Weighs v others)
    (heq : ∀ label, t.weightOf w label rows = u.weightOf v label others) :
    t.countsOf rows = u.countsOf others := by
  apply ClassCounts.ext_of
  intro label
  have ht := isWhole_countsOf h.whole (h.small label)
  have hother := isWhole_countsOf hu.whole (hu.small label)
  rw [← heq] at hother
  rcases Nat.eq_zero_or_pos (t.weightOf w label rows) with hzero | hpos
  · rw [of_countsOf_of_forall_ne (label_ne_of_weightOf_eq_zero h.pos hzero),
      of_countsOf_of_forall_ne (label_ne_of_weightOf_eq_zero hu.pos ((heq label).symm.trans hzero))]
  · exact ht.eq hother hpos

/-- Rows may be counted in any order. -/
theorem countsOf_perm (hperm : rows.Perm others) : t.countsOf rows = t.countsOf others :=
  h.countsOf_eq (h.perm hperm) fun _ => weightOf_perm hperm

/-- Rows of one class are taken for pure. -/
theorem gini_le_resolution (hone : t.OneClass rows) :
    (t.countsOf rows).gini ≤ Scalar.resolution := by
  obtain ⟨label, hlabel⟩ := hone
  cases rows with
  | nil =>
    change (ClassCounts.zero : ClassCounts Float).gini ≤ Scalar.resolution
    decide
  | cons row rows =>
    refine ClassCounts.gini_le_resolution (isWhole_countsOf h.whole (h.small label)) ?_
      (h.small label) fun other hne => of_countsOf_of_forall_ne fun member hmember => ?_
    · rw [weightOf_cons, if_pos (hlabel row List.mem_cons_self)]
      have hpos := h.pos row List.mem_cons_self
      omega
    · rw [hlabel member hmember]
      exact hne.symm

end Weighs

end TrainingTable

end LeadScoring
