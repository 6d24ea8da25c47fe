import LeadScoring.Proofs.Forest.Neighbours

/-!
# Rows that growth cannot tell from others

A row of one table may stand for rows of another one that have its features.  If whatever test on
features parts both so that the parts have the same counts, and if the limits of the configuration
let both be split at the same places, growth draws the same features, meets the same candidates and
makes the same cuts.  Since the parts stand for each other again, the trees are the same.

Main results:

- Definition `TrainingTable.Mirrors`: rows that stand for those of another table.
- Theorem `TrainingTable.Mirrors.filter`: a test leaves rows that stand for each other.
- Theorem `TrainingTable.Mirrors.bestCut?_eq`: one step makes the same cut.
- Theorem `TrainingTable.Mirrors.growFrom?_eq`: the same tree is grown.
-/

namespace LeadScoring.TrainingTable

/-- The other rows, of a second table, stand for the rows that they come from and have their
features: whatever test parts both, there are the same counts on each side, and the limits of growth
are kept or broken by both. -/
structure Mirrors (t : TrainingTable Float) (config : TreeConfig) (u : TrainingTable Float)
    (origin : ℕ → ℕ) (rows others : List ℕ) : Prop where
  mem_iff : ∀ row, row ∈ rows ↔ ∃ other ∈ others, origin other = row
  value_eq : ∀ other ∈ others, ∀ feature, u.value feature other = t.value feature (origin other)
  weighs : ∃ w, t.Weighs w rows
  othersWeigh : ∃ v, u.Weighs v others
  counts_eq : ∀ p : ℕ → Bool,
    t.countsOf (rows.filter p) = u.countsOf (others.filter (p ∘ origin))
  leaf_iff : ∀ p : ℕ → Bool, config.minSamplesLeaf ≤ (rows.filter p).length ↔
    config.minSamplesLeaf ≤ (others.filter (p ∘ origin)).length
  isFinal_eq : ∀ (p : ℕ → Bool) depth,
    isFinal config depth (rows.filter p).length (t.countsOf (rows.filter p)) =
      isFinal config depth (others.filter (p ∘ origin)).length
        (u.countsOf (others.filter (p ∘ origin)))

namespace Mirrors

variable {config : TreeConfig} {t u : TrainingTable Float} {origin : ℕ → ℕ}
  {rows others : List ℕ} {feature other later : ℕ} {counts : ClassCounts Float}

section Parts

variable (h : t.Mirrors config u origin rows others)

include h

/-- The same test on both leaves rows that stand for others. -/
theorem filter {p q : ℕ → Bool} (hsame : ∀ other ∈ others, q other = p (origin other)) :
    t.Mirrors config u origin (rows.filter p) (others.filter q) := by
  have hothers : others.filter q = others.filter (p ∘ origin) := List.filter_congr hsame
  rw [hothers]
  constructor
  · intro row
    rw [List.mem_filter, h.mem_iff]
    constructor
    · rintro ⟨⟨other, hother, rfl⟩, hp⟩
      exact ⟨other, List.mem_filter.2 ⟨hother, hp⟩, rfl⟩
    · rintro ⟨other, hother, rfl⟩
      obtain ⟨hother, hp⟩ := List.mem_filter.1 hother
      exact ⟨⟨other, hother, rfl⟩, hp⟩
  · exact fun other hother => h.value_eq other (List.mem_of_mem_filter hother)
  · exact h.weighs.imp fun _ hw => hw.filter p
  · exact h.othersWeigh.imp fun _ hv => hv.filter (p ∘ origin)
  · intro r
    rw [List.filter_filter, List.filter_filter]
    exact h.counts_eq fun row => r row && p row
  · intro r
    rw [List.filter_filter, List.filter_filter]
    exact h.leaf_iff fun row => r row && p row
  · intro r depth
    rw [List.filter_filter, List.filter_filter]
    exact h.isFinal_eq (fun row => r row && p row) depth

/-- Rows that stand for each other have the same counts. -/
theorem countsOf_eq : t.countsOf rows = u.countsOf others := by
  simpa [Function.comp_def] using h.counts_eq fun _ => true

/-- Rows that stand for each other are enough for a leaf together. -/
theorem leaf_all_iff :
    config.minSamplesLeaf ≤ rows.length ↔ config.minSamplesLeaf ≤ others.length := by
  simpa [Function.comp_def] using h.leaf_iff fun _ => true

/-- Rows that stand for each other are final together. -/
theorem isFinal_all_eq (depth : ℕ) :
    isFinal config depth rows.length (t.countsOf rows) =
      isFinal config depth others.length (u.countsOf others) := by
  simpa [Function.comp_def] using h.isFinal_eq (fun _ => true) depth

/-- The rows that a cut sends to the left stand for each other. -/
theorem goesLeft (cut : Cut Float) :
    t.Mirrors config u origin (rows.filter (t.goesLeft cut)) (others.filter (u.goesLeft cut)) :=
  h.filter fun other hother => by
    unfold TrainingTable.goesLeft
    rw [h.value_eq other hother]

/-- The rows on the right of a cut stand for each other. -/
theorem goesRight (cut : Cut Float) :
    t.Mirrors config u origin (rows.filter fun row => !t.goesLeft cut row)
      (others.filter fun row => !u.goesLeft cut row) :=
  h.filter fun other hother => by
    unfold TrainingTable.goesLeft
    rw [h.value_eq other hother]

/-! ## Candidates -/

/-- Rows that stand for each other have the same place. -/
theorem place_eq (hother : other ∈ others) :
    u.place feature other = t.place feature (origin other) :=
  congrArg (fun x => (Binary64.orderKey x : ℝ)) (h.value_eq other hother feature)

/-- The values of two rows are neighbours if those of the rows that they stand for are. -/
theorem adjoins_iff (hother : other ∈ others) (hlater : later ∈ others) :
    t.Adjoins feature rows (origin other) (origin later) ↔
      u.Adjoins feature others other later := by
  constructor
  · intro hadjoins
    refine ⟨hother, hlater, ?_, fun middle hmiddle => ?_⟩
    · rw [h.place_eq hother, h.place_eq hlater]
      exact hadjoins.lt
    · rw [h.place_eq hother, h.place_eq hlater, h.place_eq hmiddle]
      exact hadjoins.between _ ((h.mem_iff _).2 ⟨middle, hmiddle, rfl⟩)
  · intro hadjoins
    refine ⟨(h.mem_iff _).2 ⟨other, hother, rfl⟩, (h.mem_iff _).2 ⟨later, hlater, rfl⟩, ?_, ?_⟩
    · rw [← h.place_eq hother, ← h.place_eq hlater]
      exact hadjoins.lt
    · intro row hrow
      obtain ⟨middle, hmiddle, rfl⟩ := (h.mem_iff row).1 hrow
      rw [← h.place_eq hother, ← h.place_eq hlater, ← h.place_eq hmiddle]
      exact hadjoins.between middle hmiddle

/-- The rows up to a row stand for those up to the row that it stands for. -/
theorem rowsUpToRow (feature : ℕ) (hother : other ∈ others) :
    t.Mirrors config u origin (t.rowsUpToRow feature (origin other) rows)
      (u.rowsUpToRow feature other others) :=
  h.filter fun middle hmiddle => by rw [h.place_eq hmiddle, h.place_eq hother]

/-- The rows beyond a row stand for those beyond the row that it stands for. -/
theorem rowsBeyond (feature : ℕ) (hother : other ∈ others) :
    t.Mirrors config u origin
      (LeadScoring.rowsBeyond (t.place feature) (t.place feature (origin other)) rows)
      (LeadScoring.rowsBeyond (u.place feature) (u.place feature other) others) :=
  h.filter fun middle hmiddle => by rw [h.place_eq hmiddle, h.place_eq hother]

/-- The cut above a row is that above the row that it stands for. -/
theorem cutAbove?_eq (hother : other ∈ others) (hlater : later ∈ others) :
    t.cutAbove? feature config counts rows (origin other) (origin later) =
      u.cutAbove? feature config counts others other later := by
  have hleft := h.rowsUpToRow feature hother
  have hright := (h.rowsBeyond feature hother).leaf_all_iff
  rw [← length_sub_rowsUpTo, ← length_sub_rowsUpTo] at hright
  rw [cutAbove?, cutAbove?, hleft.countsOf_eq, h.value_eq other hother, h.value_eq later hlater]
  exact cutBetween?_congr hleft.leaf_all_iff hright

section Finite

variable (ht : t.HasFiniteFeatures) (hu : u.HasFiniteFeatures)

include ht hu

/-- Sweeps over both meet the same candidates. -/
theorem candidatesOn_eq :
    t.candidatesOn config counts rows feature = u.candidatesOn config counts others feature := by
  obtain ⟨w, hw⟩ := h.weighs
  obtain ⟨v, hv⟩ := h.othersWeigh
  refine candidatesOn_eq_of_mem_iff ht hu fun cut => ?_
  rw [hw.mem_candidatesOn_iff ht, hv.mem_candidatesOn_iff hu]
  constructor
  · rintro ⟨row, next, hadjoins, hcut⟩
    obtain ⟨other, hother, rfl⟩ := (h.mem_iff row).1 hadjoins.row_mem
    obtain ⟨later, hlater, rfl⟩ := (h.mem_iff next).1 hadjoins.next_mem
    exact ⟨other, later, (h.adjoins_iff hother hlater).1 hadjoins,
      (h.cutAbove?_eq hother hlater).symm.trans hcut⟩
  · rintro ⟨other, later, hadjoins, hcut⟩
    exact ⟨origin other, origin later,
      (h.adjoins_iff hadjoins.row_mem hadjoins.next_mem).2 hadjoins,
      (h.cutAbove?_eq hadjoins.row_mem hadjoins.next_mem).trans hcut⟩

/-- The search among the same features makes the same cut. -/
theorem bestCut?_eq (hwidth : t.width = u.width) (g : Generator) :
    t.bestCut? config rows counts g = u.bestCut? config others counts g := by
  have hcandidates : t.candidatesOn config counts rows = u.candidatesOn config counts others :=
    funext fun _ => h.candidatesOn_eq ht hu
  have hbest : ∀ features, t.bestCutOn? config rows counts features =
      u.bestCutOn? config others counts features := by
    intro features
    rw [bestCutOn?_eq_foldl, bestCutOn?_eq_foldl, candidates, candidates, hcandidates]
  simp only [bestCut?, hwidth, hbest]

end Finite

end Parts

/-! ## Growth -/

/-- Growth from rows that stand for each other gives the same tree, the same credits and the same
generator: the two sides of a cut stand for each other again. -/
theorem growFrom?_eq (h : t.Mirrors config u origin rows others) (ht : t.HasFiniteFeatures)
    (hu : u.HasFiniteFeatures) (hwidth : t.width = u.width) {bound depth : ℕ} (g : Generator) :
    t.growFrom? config bound depth rows g = u.growFrom? config bound depth others g := by
  induction bound generalizing depth rows others g with
  | zero =>
    rw [growFrom?, growFrom?]
    dsimp only
    rw [h.isFinal_all_eq, h.countsOf_eq, h.bestCut?_eq ht hu hwidth]
  | succ bound ih =>
    have hleft : ∀ cut g, t.growFrom? config bound (depth + 1) (rows.filter (t.goesLeft cut)) g =
        u.growFrom? config bound (depth + 1) (others.filter (u.goesLeft cut)) g :=
      fun cut g => ih (h.goesLeft cut) g
    have hright : ∀ cut g, t.growFrom? config bound (depth + 1)
          (rows.filter fun row => !t.goesLeft cut row) g =
        u.growFrom? config bound (depth + 1) (others.filter fun row => !u.goesLeft cut row) g :=
      fun cut g => ih (h.goesRight cut) g
    rw [growFrom?, growFrom?]
    dsimp only
    rw [h.isFinal_all_eq, h.countsOf_eq, h.bestCut?_eq ht hu hwidth]
    simp only [hleft, hright]

/-- A tree is grown from two tables whose rows stand for each other, and it is the same. -/
theorem exists_grow? (h : t.Mirrors config u origin t.weightedRows u.weightedRows)
    (ht : t.HasFiniteFeatures) (hu : u.HasFiniteFeatures) (hwidth : t.width = u.width)
    (g : Generator) :
    ∃ grown after, t.grow? config g = some (grown, after) ∧
      u.grow? config g = some (grown, after) := by
  obtain ⟨grown, after, hgrow⟩ := TrainingTable.exists_grow? ht config g
  obtain ⟨other, later, hother⟩ := TrainingTable.exists_grow? hu config g
  -- The bounds on the depth may differ, and within the greater one both are returned.
  have hmore := growFrom?_mono hgrow
    (le_max_left (depthBound config t.labels.size) (depthBound config u.labels.size))
  have hmoreOther := growFrom?_mono hother
    (le_max_right (depthBound config t.labels.size) (depthBound config u.labels.size))
  rw [h.growFrom?_eq ht hu hwidth, hmoreOther] at hmore
  exact ⟨grown, after, hgrow, hother.trans hmore⟩

end Mirrors

end LeadScoring.TrainingTable
