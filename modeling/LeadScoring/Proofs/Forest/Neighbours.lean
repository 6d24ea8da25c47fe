import LeadScoring.Proofs.Forest.ExactCounts

/-!
# Cuts between neighbouring values

A sweep goes through the rows in the order of a feature, and rows of one value come in the order in
which they were given.  It cuts between different values only, so the cuts that it meets can be told
without the sweep: each stands between two values that have no other one between them, and the rows
up to the lower value are on its left.

Main results:

- Definition `TrainingTable.Adjoins`: two rows whose values are neighbours.
- Definition `TrainingTable.cutAbove?`: the cut right above the value of a row.
- Theorem `TrainingTable.Weighs.mem_candidatesOn_iff`: the candidates of a feature, one for each
  pair of neighbouring values.
- Theorem `TrainingTable.candidatesOn_eq_of_mem_iff`: sweeps that meet the same candidates meet them
  in the same order.
-/

namespace LeadScoring.TrainingTable

open Binary64 (toRat)

section Definitions

variable (t : TrainingTable Float) (feature : ℕ)

/-- The rows that do not come after a row in the order of a feature. -/
noncomputable def rowsUpToRow (row : ℕ) (rows : List ℕ) : List ℕ :=
  rowsUpTo (t.place feature) (t.place feature row) rows

/-- The values of two rows are different, and there is no other value between them. -/
structure Adjoins (rows : List ℕ) (row next : ℕ) : Prop where
  row_mem : row ∈ rows
  next_mem : next ∈ rows
  lt : t.place feature row < t.place feature next
  between : ∀ other ∈ rows, t.place feature other ≤ t.place feature row ∨
    t.place feature next ≤ t.place feature other

/-- The cut of some rows between the values of two of them. -/
noncomputable def cutAbove? (config : TreeConfig) (counts : ClassCounts Float) (rows : List ℕ)
    (row next : ℕ) : Option (Cut Float) :=
  cutBetween? config counts rows.length feature (t.countsOf (t.rowsUpToRow feature row rows))
    (t.rowsUpToRow feature row rows).length (t.value feature row) (t.value feature next)

end Definitions

variable {t : TrainingTable Float} {config : TreeConfig} {counts : ClassCounts Float}
  {rows sorted lower upper : List ℕ} {feature row next : ℕ} {w : ℕ → ℕ} {cut : Cut Float}

/-! ## Places -/

/-- Rows at one place have one value. -/
theorem value_eq_of_place_eq (h : t.place feature row = t.place feature next) :
    t.value feature row = t.value feature next :=
  Binary64.eq_of_orderKey_eq (Int.cast_injective h)

/-- Of two sorted rows whose values can be told apart the second one has a later place. -/
theorem place_lt_of_not_le (hfinite : t.HasFiniteFeatures)
    (hle : t.place feature row ≤ t.place feature next)
    (h : ¬ t.value feature next ≤ t.value feature row) :
    t.place feature row < t.place feature next := by
  refine lt_of_le_of_ne hle fun heq => h ?_
  rw [value_eq_of_place_eq heq]
  exact Binary64.le_self (hfinite.isFinite_value feature next)

/-! ## Neighbours -/

/-- Neighbours in the sorted rows that can be told apart adjoin each other. -/
theorem adjoins_of_sorted (hsorted : (lower ++ row :: next :: upper).Perm rows)
    (hplaces : (lower ++ row :: next :: upper).Pairwise
      fun row next => t.place feature row ≤ t.place feature next)
    (hlt : t.place feature row < t.place feature next) : t.Adjoins feature rows row next := by
  refine ⟨hsorted.subset (by simp), hsorted.subset (by simp), hlt, fun other hother => ?_⟩
  by_cases hle : t.place feature other ≤ t.place feature row
  · exact Or.inl hle
  · right
    have hbeyond : other ∈ rowsBeyond (t.place feature) (t.place feature row) rows :=
      List.mem_filter.2 ⟨hother, by simpa using hle⟩
    rw [(sides_perm_of_neighbours hplaces hsorted le_rfl hlt).2.mem_iff] at hbeyond
    rw [List.pairwise_append, List.pairwise_cons, List.pairwise_cons] at hplaces
    rcases List.mem_cons.1 hbeyond with rfl | hupper
    · exact le_rfl
    · exact hplaces.2.1.2.1 other hupper

/-- Rows that adjoin each other have the places of two neighbours in the sorted rows. -/
theorem Adjoins.exists_neighbours (h : t.Adjoins feature rows row next)
    (hsorted : sorted.Perm rows)
    (hplaces : sorted.Pairwise fun row next => t.place feature row ≤ t.place feature next) :
    ∃ lower first second upper, sorted = lower ++ first :: second :: upper ∧
      t.place feature first = t.place feature row ∧
      t.place feature second = t.place feature next := by
  have hrow : row ∈ rowsUpTo (t.place feature) (t.place feature row) rows :=
    List.mem_filter.2 ⟨h.row_mem, by simp⟩
  have hnext : next ∈ rowsBeyond (t.place feature) (t.place feature row) rows :=
    List.mem_filter.2 ⟨h.next_mem, by simpa using h.lt⟩
  obtain ⟨lower, first, second, upper, rfl, hlow, hhigh⟩ :=
    LeadScoring.exists_neighbours hplaces hsorted (List.ne_nil_of_mem hrow)
      (List.ne_nil_of_mem hnext)
  obtain ⟨hupTo, hbeyond⟩ := sides_perm_of_neighbours hplaces hsorted hlow hhigh
  rw [hupTo.mem_iff] at hrow
  rw [hbeyond.mem_iff] at hnext
  have hsecond : second ∈ rows := hsorted.subset (by simp)
  rw [List.pairwise_append, List.pairwise_cons, List.pairwise_cons] at hplaces
  refine ⟨lower, first, second, upper, rfl, le_antisymm hlow ?_, le_antisymm ?_ ?_⟩
  · rcases List.mem_append.1 hrow with hlower | hfirst
    · exact hplaces.2.2 row hlower first List.mem_cons_self
    · rw [List.mem_singleton.1 hfirst]
  · rcases List.mem_cons.1 hnext with rfl | hupper
    · exact le_rfl
    · exact hplaces.2.1.2.1 next hupper
  · exact (h.between second hsecond).resolve_left (not_le.2 hhigh)

/-! ## Candidates -/

/-- The rows before a cut in the sorted rows are those up to its lower value. -/
theorem Weighs.cutBetween?_eq (h : t.Weighs w rows)
    (hsorted : (lower ++ row :: next :: upper).Perm rows)
    (hplaces : (lower ++ row :: next :: upper).Pairwise
      fun row next => t.place feature row ≤ t.place feature next)
    (hlt : t.place feature row < t.place feature next) :
    cutBetween? config counts rows.length feature (t.countsOf (lower ++ [row]))
        (lower ++ [row]).length (t.value feature row) (t.value feature next) =
      t.cutAbove? feature config counts rows row next := by
  have hupTo := (sides_perm_of_neighbours hplaces hsorted le_rfl hlt).1
  have hcounts : t.countsOf (t.rowsUpToRow feature row rows) = t.countsOf (lower ++ [row]) :=
    (h.filter _).countsOf_perm hupTo
  have hlength : (t.rowsUpToRow feature row rows).length = (lower ++ [row]).length :=
    hupTo.length_eq
  rw [cutAbove?, hcounts, hlength]

/-- The cut above a row depends on the values of its two rows only. -/
theorem cutAbove?_congr {other later : ℕ} (hrow : t.place feature row = t.place feature other)
    (hnext : t.place feature next = t.place feature later) :
    t.cutAbove? feature config counts rows row next =
      t.cutAbove? feature config counts rows other later := by
  rw [cutAbove?, cutAbove?, rowsUpToRow, rowsUpToRow, value_eq_of_place_eq hrow,
    value_eq_of_place_eq hnext, hrow]

/-- The candidates of a feature stand between neighbouring values. -/
theorem Weighs.mem_candidatesOn_iff (h : t.Weighs w rows) (hfinite : t.HasFiniteFeatures) :
    cut ∈ t.candidatesOn config counts rows feature ↔
      ∃ row next, t.Adjoins feature rows row next ∧
        t.cutAbove? feature config counts rows row next = some cut := by
  have hperm := t.sortedBy_perm feature rows
  have hplaces := t.sortedBy_places feature rows
  rw [TrainingTable.mem_candidatesOn_iff]
  constructor
  · rintro ⟨lower, row, next, upper, hsorted, hcut⟩
    rw [hsorted] at hperm hplaces
    have hle : t.place feature row ≤ t.place feature next :=
      List.rel_of_pairwise_cons (List.pairwise_append.1 hplaces).2.1 List.mem_cons_self
    have hlt := place_lt_of_not_le hfinite hle (cutBetween?_eq_some_iff.1 hcut).1
    exact ⟨row, next, adjoins_of_sorted hperm hplaces hlt,
      (h.cutBetween?_eq hperm hplaces hlt).symm.trans hcut⟩
  · rintro ⟨row, next, hadjoins, hcut⟩
    obtain ⟨lower, first, second, upper, hsorted, hfirst, hsecond⟩ :=
      hadjoins.exists_neighbours hperm hplaces
    rw [hsorted] at hperm hplaces
    have hlt : t.place feature first < t.place feature second := by
      rw [hfirst, hsecond]
      exact hadjoins.lt
    refine ⟨lower, first, second, upper, hsorted, ?_⟩
    rw [h.cutBetween?_eq hperm hplaces hlt, cutAbove?_congr hfirst hsecond, hcut]

/-- Candidates of a feature come in ascending order of their thresholds. -/
theorem pairwise_candidatesOn (hfinite : t.HasFiniteFeatures) (config : TreeConfig)
    (counts : ClassCounts Float) (rows : List ℕ) (feature : ℕ) :
    (t.candidatesOn config counts rows feature).Pairwise
      fun cut later => toRat cut.threshold < toRat later.threshold := by
  have hparts : t.PartsKeys feature (t.exactValue feature) fun x => (toRat x : ℝ) :=
    fun row next hle => (exactValue_thresholdBetween hfinite hle).2
  exact (pairwise_candidatesFrom hparts (sortedBy_keys hfinite feature rows)).imp
    fun hlt => Rat.cast_lt.1 hlt

/-- Sweeps that meet the same candidates meet them in the same order. -/
theorem candidatesOn_eq_of_mem_iff {u : TrainingTable Float} (ht : t.HasFiniteFeatures)
    (hu : u.HasFiniteFeatures) {others : List ℕ} {less : ClassCounts Float}
    (h : ∀ cut, cut ∈ t.candidatesOn config counts rows feature ↔
      cut ∈ u.candidatesOn config less others feature) :
    t.candidatesOn config counts rows feature = u.candidatesOn config less others feature := by
  have hascending := pairwise_candidatesOn ht config counts rows feature
  have hother := pairwise_candidatesOn hu config less others feature
  have hperm := (List.perm_ext_iff_of_nodup (hascending.imp fun hlt heq => ?_)
    (hother.imp fun hlt heq => ?_)).2 h
  · refine hperm.eq_of_pairwise ?_ hascending hother
    intro cut later _ _ hlt hgt
    exact absurd hlt hgt.asymm
  all_goals
    rw [heq] at hlt
    exact lt_irrefl _ hlt

end LeadScoring.TrainingTable
