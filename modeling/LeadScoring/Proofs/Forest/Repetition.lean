import LeadScoring.Proofs.Forest.Selection

/-!
# A weight says how often a row counts

A row of weight three may be written down three times with weight one.  The counts of all nodes are
the same then, although there are more rows to be split.  Where the smallest nodes are those that a
split needs anyway, this does not show in the tree: rows that are too few to be split are of one
class, and their copies are left together because they are pure.

The weights of copies are added up one by one, which ends at `2 ^ 53`.  So the weights of a class
must not exceed this number together.

Main results:

- Definition `TrainingTable.repeated`: a table with its rows repeated as often as they count.
- Theorem `TrainingTable.isFinal_of_few`: sizes do not matter where two rows can be split.
- Theorem `TrainingTable.build?_repeated`: building returns the same from both.
- Theorem `TrainingTable.build?_repeated_surplusRows`: a weight beyond `2 ^ 53` that is not reached
  by adding ones.
-/

namespace LeadScoring.TrainingTable

open Binary64 (IsWhole toRat)

/-! ## Definitions -/

section Definitions

variable {α : Type} [Scalar α]

/-- Each row as often as it counts. -/
def copies (w : ℕ → ℕ) (rows : List ℕ) : List ℕ :=
  rows.flatMap fun row => List.replicate (w row) row

/-- The weight of a row that counts once. -/
def once (_ : ℕ) : α :=
  1

/-- The table in which each row is repeated as often as it counts, with weight one. -/
def repeated (t : TrainingTable α) (w : ℕ → ℕ) : TrainingTable α :=
  t.select (copies w (List.range t.features.size)) once

end Definitions

/-- All rows have whole weights, and no class weighs more than `2 ^ 53`. -/
structure CountsRows (t : TrainingTable Float) (w : ℕ → ℕ) : Prop where
  whole : ∀ row < t.features.size, IsWhole (t.weight row) (w row)
  small : ∀ label, t.weightOf w label (List.range t.features.size) ≤ 2 ^ 53

variable {t : TrainingTable Float} {config : TreeConfig} {w : ℕ → ℕ} {rows : List ℕ} {row : ℕ}
  {label : Label}

/-! ## Copies -/

/-- A row is copied exactly if its weight is not zero. -/
theorem mem_copies : row ∈ copies w rows ↔ row ∈ rows ∧ 0 < w row := by
  simp only [copies, List.mem_flatMap, List.mem_replicate, Nat.pos_iff_ne_zero]
  constructor
  · rintro ⟨other, hother, hne, rfl⟩
    exact ⟨hother, hne⟩
  · rintro ⟨hrow, hne⟩
    exact ⟨row, hrow, hne, rfl⟩

/-- Rows that do not count have no copies. -/
theorem copies_filter_pos (w : ℕ → ℕ) (rows : List ℕ) :
    copies w (rows.filter fun row => decide (0 < w row)) = copies w rows := by
  unfold copies
  induction rows with
  | nil => rfl
  | cons row rows ih =>
    by_cases hpos : 0 < w row
    · simp [hpos, ih]
    · have hzero : w row = 0 := by omega
      simp [hzero, ih]

/-- Copies of weight one weigh as much as the rows that they were made of. -/
theorem weightOf_copies (p : ℕ → Bool) (rows : List ℕ) :
    t.weightOf (fun _ => 1) label ((copies w rows).filter p) =
      t.weightOf w label (rows.filter p) := by
  induction rows with
  | nil => rfl
  | cons row rows ih =>
    have hcopies : copies w (row :: rows) = List.replicate (w row) row ++ copies w rows := rfl
    rw [hcopies, List.filter_append, weightOf_append, ih]
    cases hp : p row with
    | false => simp [hp, weightOf]
    | true =>
      rw [List.filter_cons_of_pos hp, weightOf_cons]
      congr 1
      split_ifs with hlabel <;> simp [weightOf, hp, hlabel]

/-! ## Few rows -/

/-- A single row is of one class. -/
theorem oneClass_of_length_lt (h : rows.length < 2) : t.OneClass rows := by
  match rows, h with
  | [], _ => exact ⟨.negative, by simp⟩
  | [row], _ => exact ⟨t.label row, by simp⟩

/-- Where two rows can be split the number of rows does not matter, as long as fewer rows are taken
for pure. -/
theorem isFinal_of_few (hsplit : config.minSamplesSplit = 2) (hleaf : config.minSamplesLeaf = 1)
    {size other depth : ℕ} {counts : ClassCounts Float}
    (hsize : size < 2 → counts.gini ≤ Scalar.resolution)
    (hother : other < 2 → counts.gini ≤ Scalar.resolution) :
    isFinal config depth size counts = isFinal config depth other counts := by
  have htwo : config.rowsOfTwoLeaves = 2 := by rw [TreeConfig.rowsOfTwoLeaves, hleaf]
  unfold isFinal
  rw [hsplit, htwo]
  by_cases hpure : counts.gini ≤ Scalar.resolution
  · simp [hpure]
  · have hlarge : ¬ size < 2 := fun hlt => hpure (hsize hlt)
    have hotherLarge : ¬ other < 2 := fun hlt => hpure (hother hlt)
    simp [hlarge, hotherLarge]

/-! ## Repeated rows -/

section Repeated

/-- Rows that count once all have a share. -/
theorem sharing_once (order : List ℕ) : sharing order (once : ℕ → Float) = order := by
  have hpos : (0.0 : Float) < 1.0 := by decide
  exact List.filter_eq_self.2 fun _ _ => decide_eq_true hpos

theorem isWhole_once (row : ℕ) : IsWhole (once row) 1 := by
  change IsWhole (1.0 : Float) 1
  decide +kernel

variable (hrect : t.IsRectangular) (hweights : t.CountsRows w)

include hrect hweights

/-- The rows that take part are those that count. -/
theorem CountsRows.weightedRows_eq :
    t.weightedRows = (List.range t.features.size).filter fun row => decide (0 < w row) := by
  rw [weightedRows, hrect.labels_size]
  apply List.filter_congr
  intro row hrow
  have hwhole := hweights.whole row (List.mem_range.1 hrow)
  have hzero : IsWhole (0.0 : Float) 0 := Binary64.isWhole_zero
  rw [decide_eq_decide]
  change (0.0 : Float) < t.weight row ↔ _
  rw [Binary64.lt_iff_toRat_lt hzero.finite hwhole.finite, hzero.toRat_eq, hwhole.toRat_eq]
  exact Nat.cast_lt

/-- Weights that count rows are whole. -/
theorem CountsRows.hasWholeWeights : t.HasWholeWeights w where
  whole row hrow := by
    rw [hweights.weightedRows_eq hrect] at hrow
    exact hweights.whole row (List.mem_range.1 (List.mem_of_mem_filter hrow))
  small label := by
    rw [hweights.weightedRows_eq hrect]
    exact (weightOf_filter_le _ _).trans (hweights.small label)

/-- The copies are those of the rows that take part. -/
theorem CountsRows.sharing_eq :
    sharing (copies w (List.range t.features.size)) (once : ℕ → Float) =
      copies w t.weightedRows := by
  rw [sharing_once, hweights.weightedRows_eq hrect, copies_filter_pos]

/-- The rows that take part are those that are copied. -/
theorem CountsRows.mem_copies_iff :
    row ∈ t.weightedRows ↔ row ∈ copies w t.weightedRows := by
  rw [mem_copies]
  exact ⟨fun hrow => ⟨hrow, (hweights.hasWholeWeights hrect).weighs.pos row hrow⟩, And.left⟩

/-- The copies share out the weights. -/
theorem CountsRows.sharesOut :
    t.SharesOut (copies w (List.range t.features.size)) once w fun _ => 1 := by
  constructor
  · exact fun row _ => isWhole_once row
  · intro row
    rw [hweights.sharing_eq hrect, ← hweights.mem_copies_iff hrect]
  · intro p label
    rw [hweights.sharing_eq hrect, weightOf_copies]

/-- A part of the rows does not have more rows than there are copies of them. -/
theorem CountsRows.length_filter_le (p : ℕ → Bool) :
    (t.weightedRows.filter p).length ≤ ((copies w t.weightedRows).filter p).length := by
  have hnodup : (t.weightedRows.filter p).Nodup := (List.nodup_range.filter _).filter p
  refine (List.subperm_of_subset hnodup fun row hrow => ?_).length_le
  rw [List.mem_filter] at hrow ⊢
  exact ⟨(hweights.mem_copies_iff hrect).1 hrow.1, hrow.2⟩

end Repeated

/-- A weight says how often a row counts.  From every rectangular table of finite features and whole
weights, not all of them zero, of which no class weighs more than `2 ^ 53`, building returns the same
arrays, the same impurity decreases and the same generator as from the table in which each row is
repeated as often as its weight says, with weight one, if two rows can be split and leaves may have
one row. -/
theorem build?_repeated (t : TrainingTable Float) (hrect : t.IsRectangular)
    (hfinite : t.HasFiniteFeatures) (w : ℕ → ℕ) (hweights : t.CountsRows w)
    (hpos : ∃ row < t.features.size, 0 < w row) (config : TreeConfig)
    (hsplit : config.minSamplesSplit = 2) (hleaf : config.minSamplesLeaf = 1) (g : Generator) :
    ∃ result, t.build? config g = some result ∧ (t.repeated w).build? config g = some result := by
  have hwhole := hweights.hasWholeWeights hrect
  have hwidth : (t.repeated w).width = t.width := by
    obtain ⟨row, hrow, hcounts⟩ := hpos
    have hcopy : row ∈ copies w (List.range t.features.size) :=
      mem_copies.2 ⟨List.mem_range.2 hrow, hcounts⟩
    exact hrect.width_select (List.ne_nil_of_mem hcopy)
      fun other hother => List.mem_range.1 (mem_copies.1 hother).1
  have hmirrors : t.Mirrors config (t.repeated w) (originIn (copies w (List.range t.features.size)))
      t.weightedRows (t.repeated w).weightedRows := by
    refine (hweights.sharesOut hrect).mirrors hwhole ?_ ?_
    · intro p
      rw [hleaf, hweights.sharing_eq hrect, Nat.one_le_iff_ne_zero, Nat.one_le_iff_ne_zero, ne_eq,
        ne_eq, List.length_eq_zero_iff, List.length_eq_zero_iff, List.filter_eq_nil_iff,
        List.filter_eq_nil_iff]
      simp only [← hweights.mem_copies_iff hrect]
    · intro p depth
      rw [hweights.sharing_eq hrect]
      have hfew : (t.weightedRows.filter p).length < 2 →
          (t.countsOf (t.weightedRows.filter p)).gini ≤ Scalar.resolution :=
        fun hlt => (hwhole.weighs.filter p).gini_le_resolution (oneClass_of_length_lt hlt)
      exact isFinal_of_few hsplit hleaf hfew
        fun hlt => hfew ((hweights.length_filter_le hrect p).trans_lt hlt)
  exact hmirrors.exists_build? hfinite (hasFiniteFeatures_select hfinite _ _) hwidth g

/-- Four rows, one of which does not count. -/
def drawnRows : TrainingTable Float where
  features := #[#[0.5, 2.0], #[-1.0, 3.0], #[0.5, -0.0], #[4.0, 0.0]]
  labels := #[.negative, .positive, .positive, .negative]
  weights := #[2.0, 3.0, 0.0, 1.0]

/-- The weights as whole numbers. -/
def drawnWeights : ℕ → ℕ
  | 0 => 2
  | 1 => 3
  | 3 => 1
  | _ => 0

/-- Rows with the weights of a draw, and the same rows written out. -/
theorem build?_repeated_drawnRows :
    drawnRows.IsRectangular ∧ drawnRows.HasFiniteFeatures ∧ drawnRows.CountsRows drawnWeights ∧
      (∃ row < drawnRows.features.size, 0 < drawnWeights row) ∧
      ({ maxDepth := some 3, maxFeatures := .sqrt } : TreeConfig).minSamplesSplit = 2 ∧
      ({ maxDepth := some 3, maxFeatures := .sqrt } : TreeConfig).minSamplesLeaf = 1 ∧
      ∃ result,
        drawnRows.build? { maxDepth := some 3, maxFeatures := .sqrt } (Generator.ofSeed 7) =
          some result ∧
        (drawnRows.repeated drawnWeights).build? { maxDepth := some 3, maxFeatures := .sqrt }
          (Generator.ofSeed 7) = some result := by
  have hrect : drawnRows.IsRectangular := ⟨rfl, rfl, by decide⟩
  have hfinite : drawnRows.HasFiniteFeatures := by decide +kernel
  have hweights : drawnRows.CountsRows drawnWeights := by
    constructor
    · decide +kernel
    · intro label
      cases label <;> decide +kernel
  have hpos : ∃ row < drawnRows.features.size, 0 < drawnWeights row := ⟨0, by decide, by decide⟩
  exact ⟨hrect, hfinite, hweights, hpos, rfl, rfl, build?_repeated drawnRows hrect hfinite
    drawnWeights hweights hpos { maxDepth := some 3, maxFeatures := .sqrt } rfl rfl
    (Generator.ofSeed 7)⟩

/-! ## Too many copies -/

/-- Adding ones and nothing else does not lead above `2 ^ 53`. -/
theorem isWhole_add_of_le {x y : Float} {n k : ℕ} (hx : IsWhole x n) (hn : n ≤ 2 ^ 53)
    (hy : IsWhole y k) (hk : k = 0 ∨ k = 1) : ∃ m ≤ 2 ^ 53, IsWhole (x + y) m := by
  by_cases hsum : n + k ≤ 2 ^ 53
  · exact ⟨n + k, hsum, hx.add hy hsum⟩
  · obtain ⟨rfl, rfl⟩ : n = 2 ^ 53 ∧ k = 1 := by omega
    have hfull : IsWhole 9007199254740992.0 (2 ^ 53) := by decide +kernel
    have hone : IsWhole 1.0 1 := by decide +kernel
    rw [hx.eq hfull (by decide), hy.eq hone (by decide)]
    exact ⟨2 ^ 53, le_rfl, by decide +kernel⟩

/-- However often rows are repeated, no class is counted above `2 ^ 53`. -/
theorem countsOf_repeated_le (t : TrainingTable Float) (w : ℕ → ℕ) (rows : List ℕ) :
    ∃ n ≤ 2 ^ 53, IsWhole ((t.repeated w).countsOf rows).negative n := by
  have hzero : ∃ n ≤ 2 ^ 53, IsWhole (0 : Float) n := ⟨0, by decide, Binary64.isWhole_zero⟩
  refine (forall_countsOf (P := fun x => ∃ n ≤ 2 ^ 53, IsWhole x n) hzero ?_ rows).1
  rintro x row ⟨n, hn, hx⟩
  by_cases hrow : row < (copies w (List.range t.features.size)).length
  · rw [repeated, weight_select hrow]
    exact isWhole_add_of_le hx hn (isWhole_once _) (Or.inr rfl)
  · have hnone : (t.repeated w).weight row = 0.0 := by
      simp [weight, repeated, select, not_lt.1 hrow]
      rfl
    rw [hnone]
    exact isWhole_add_of_le hx hn Binary64.isWhole_zero (Or.inl rfl)

/-- Two rows, one of which counts more often than ones can be added up. -/
def surplusRows : TrainingTable Float where
  features := #[#[0.0], #[1.0]]
  labels := #[.negative, .positive]
  weights := #[9007199254740994.0, 1.0]

/-- The weights as whole numbers. -/
def surplusWeights : ℕ → ℕ
  | 0 => 2 ^ 53 + 2
  | _ => 1

/-- The first node has other counts after a row of too great a weight has been repeated. -/
theorem build?_repeated_surplusRows :
    surplusRows.IsRectangular ∧ surplusRows.HasFiniteFeatures ∧
      (∀ row < surplusRows.features.size,
        IsWhole (surplusRows.weight row) (surplusWeights row) ∧ 0 < surplusWeights row) ∧
      ({ maxFeatures := .all } : TreeConfig).minSamplesSplit = 2 ∧
      ({ maxFeatures := .all } : TreeConfig).minSamplesLeaf = 1 ∧
      ∃ result other,
        surplusRows.build? { maxFeatures := .all } (Generator.ofSeed 1) = some result ∧
        (surplusRows.repeated surplusWeights).build? { maxFeatures := .all }
          (Generator.ofSeed 1) = some other ∧ result.1 ≠ other.1 := by
  have hfinite : surplusRows.HasFiniteFeatures := by decide
  have hsurplus : IsWhole (surplusRows.countsOf surplusRows.weightedRows).negative
      (2 ^ 53 + 2) := by
    decide +kernel
  have hcounts : surplusRows.countsOf surplusRows.weightedRows ≠
      (surplusRows.repeated surplusWeights).countsOf
        (surplusRows.repeated surplusWeights).weightedRows := by
    intro heq
    obtain ⟨n, hn, hcount⟩ := countsOf_repeated_le surplusRows surplusWeights
      (surplusRows.repeated surplusWeights).weightedRows
    rw [← heq] at hcount
    have hsame : n = 2 ^ 53 + 2 := by exact_mod_cast hcount.toRat_eq.symm.trans hsurplus.toRat_eq
    omega
  exact ⟨⟨rfl, rfl, by decide⟩, hfinite, by decide +kernel, rfl, rfl,
    exists_build?_ne hfinite (hasFiniteFeatures_select hfinite _ _) hcounts
      { maxFeatures := .all } (Generator.ofSeed 1)⟩

end LeadScoring.TrainingTable
