import LeadScoring.Forest.Growth
import LeadScoring.Proofs.Random
import Mathlib.Order.Basic

/-!
# Candidate cuts

The search for the best cut of some rows moves the sorted rows of one feature after the other to the
left and keeps the better of two cuts as it goes.  This module lists the cuts that it meets, apart
from the choice among them: one for each pair of neighbouring rows that can be cut apart, in the
order of the sweep, with the rows up to the pair on its left.

Main results:

- Definition `TrainingTable.candidates`: the cuts that a search meets, in their order.
- Theorem `TrainingTable.bestCutOn?_eq_foldl`: the search keeps the better of two candidates.
- Theorem `TrainingTable.mem_candidatesOn_iff`: the candidates of a feature, one for each pair of
  neighbours.
- Theorem `TrainingTable.pairwise_candidatesFrom`: candidates of a feature come in ascending order.
- Theorem `TrainingTable.exists_neighbours_of_bestCut?`: the best cut lies between two rows.
-/

namespace LeadScoring

variable {α : Type} [Scalar α]

namespace Cut

/-- The better of two cuts is one of them. -/
theorem mem_better {best : Option (Cut α)} {cut kept : Cut α} (h : kept ∈ better best cut) :
    kept ∈ best ∨ kept = cut := by
  cases best with
  | none => exact Or.inr (by simpa [better, eq_comm] using h)
  | some b =>
    by_cases hlt : b.gain < cut.gain
    · exact Or.inr (by simpa [better, hlt, eq_comm] using h)
    · exact Or.inl (by simpa [better, hlt] using h)

/-- What is kept of some cuts is one of them. -/
theorem mem_foldl_better {cuts : List (Cut α)} {best : Option (Cut α)} {kept : Cut α}
    (h : kept ∈ cuts.foldl better best) : kept ∈ best ∨ kept ∈ cuts := by
  induction cuts generalizing best with
  | nil => exact Or.inl h
  | cons cut cuts ih =>
    rcases ih h with hbetter | hmem
    · rcases mem_better hbetter with hbest | rfl
      · exact Or.inl hbest
      · exact Or.inr List.mem_cons_self
    · exact Or.inr (List.mem_cons_of_mem cut hmem)

/-- Something is kept of some cuts. -/
theorem foldl_better_eq_none_iff {cuts : List (Cut α)} :
    cuts.foldl better none = none ↔ cuts = [] := by
  have hkept : ∀ (cuts : List (Cut α)) (best : Cut α), cuts.foldl better (some best) ≠ none := by
    intro cuts
    induction cuts with
    | nil => exact fun best => Option.some_ne_none best
    | cons cut cuts ih =>
      intro best
      rw [List.foldl_cons, better]
      split_ifs
      · exact ih cut
      · exact ih best
  cases cuts with
  | nil => exact iff_of_true rfl rfl
  | cons cut cuts => exact iff_of_false (hkept cuts cut) (List.cons_ne_nil cut cuts)

end Cut

namespace TrainingTable

/-! ## Candidates -/

section Definitions

variable (t : TrainingTable α) (config : TreeConfig) (counts : ClassCounts α) (size feature : ℕ)

/-- The cuts of a feature that a sweep still meets, where some rows are on the left already. -/
def candidatesFrom (left : ClassCounts α) (leftSize : ℕ) : List ℕ → List (Cut α)
  | row :: next :: rows =>
    (cutBetween? config counts size feature (t.addRow left row) (leftSize + 1)
        (t.value feature row) (t.value feature next)).toList ++
      candidatesFrom (t.addRow left row) (leftSize + 1) (next :: rows)
  | _ => []

/-- The cuts of some rows that a sweep over a feature meets. -/
def candidatesOn (rows : List ℕ) (feature : ℕ) : List (Cut α) :=
  t.candidatesFrom config counts rows.length feature .zero 0 (t.sortedBy feature rows)

/-- The cuts of some rows that a search meets. -/
def candidates (rows features : List ℕ) : List (Cut α) :=
  features.flatMap (t.candidatesOn config counts rows)

end Definitions

variable {t : TrainingTable α} {config : TreeConfig} {counts : ClassCounts α}
  {size feature : ℕ} {rows features : List ℕ} {cut : Cut α}

/-- A sweep keeps the better of two cuts that it meets. -/
theorem sweep_eq_foldl (left : ClassCounts α) (leftSize : ℕ) (best : Option (Cut α))
    (pending : List ℕ) :
    t.sweep config counts size feature left leftSize best pending =
      (t.candidatesFrom config counts size feature left leftSize pending).foldl Cut.better best := by
  induction pending generalizing left leftSize best with
  | nil => rfl
  | cons row pending ih =>
    cases pending with
    | nil => rfl
    | cons next pending =>
      rw [sweep, candidatesFrom, List.foldl_append, ih]
      cases cutBetween? config counts size feature (t.addRow left row) (leftSize + 1)
        (t.value feature row) (t.value feature next) <;> rfl

/-- The search keeps the better of two candidates. -/
theorem bestCutOn?_eq_foldl (t : TrainingTable α) (config : TreeConfig) (rows : List ℕ)
    (counts : ClassCounts α) (features : List ℕ) :
    t.bestCutOn? config rows counts features =
      (t.candidates config counts rows features).foldl Cut.better none := by
  unfold bestCutOn? candidates
  rw [List.foldl_flatMap]
  simp only [sweep_eq_foldl]
  rfl

/-- There is no best cut exactly if there are no candidates on the features drawn. -/
theorem bestCut?_eq_none_iff {g : Generator} :
    (t.bestCut? config rows counts g).1 = none ↔ t.candidates config counts rows
      (g.sample t.width (config.maxFeatures.resolve t.width)).1 = [] := by
  change t.bestCutOn? config rows counts
    (g.sample t.width (config.maxFeatures.resolve t.width)).1 = none ↔ _
  rw [bestCutOn?_eq_foldl, Cut.foldl_better_eq_none_iff]

/-- The best cut is a candidate on one of the features drawn. -/
theorem mem_candidates_of_bestCut? {g after : Generator}
    (h : t.bestCut? config rows counts g = (some cut, after)) :
    cut ∈ t.candidates config counts rows
      (g.sample t.width (config.maxFeatures.resolve t.width)).1 := by
  have hcut : t.bestCutOn? config rows counts
      (g.sample t.width (config.maxFeatures.resolve t.width)).1 = some cut :=
    congrArg Prod.fst h
  rw [bestCutOn?_eq_foldl] at hcut
  simpa using Cut.mem_foldl_better (Option.mem_def.2 hcut)

/-! ## Neighbours -/

theorem countsOf_concat (t : TrainingTable α) (rows : List ℕ) (row : ℕ) :
    t.countsOf (rows ++ [row]) = t.addRow (t.countsOf rows) row := by
  simp [countsOf]

/-- A sweep meets one cut for each pair of neighbours that can be cut apart.  The rows before the
pair and the first one of the pair are on its left. -/
theorem mem_candidatesFrom_iff (front : List ℕ) {pending : List ℕ} :
    cut ∈ t.candidatesFrom config counts size feature (t.countsOf front) front.length pending ↔
      ∃ lower row next upper, pending = lower ++ row :: next :: upper ∧
        cutBetween? config counts size feature (t.countsOf (front ++ lower ++ [row]))
          (front ++ lower ++ [row]).length (t.value feature row) (t.value feature next) =
            some cut := by
  induction pending generalizing front with
  | nil => simp [candidatesFrom]
  | cons row pending ih =>
    cases pending with
    | nil =>
      simp only [candidatesFrom, List.not_mem_nil, false_iff]
      rintro ⟨lower, first, next, upper, hpending, -⟩
      have hlength := congrArg List.length hpending
      simp at hlength
      omega
    | cons next pending =>
      have hfront := ih (front ++ [row])
      rw [countsOf_concat, List.length_append, List.length_singleton] at hfront
      rw [candidatesFrom, List.mem_append, Option.mem_toList, hfront]
      constructor
      · rintro (hcut | ⟨lower, first, second, upper, hpending, hcut⟩)
        · refine ⟨[], row, next, pending, rfl, ?_⟩
          simpa [countsOf_concat] using hcut
        · refine ⟨row :: lower, first, second, upper, by rw [hpending, List.cons_append], ?_⟩
          simpa using hcut
      · rintro ⟨lower, first, second, upper, hpending, hcut⟩
        cases lower with
        | nil =>
          simp only [List.nil_append, List.cons.injEq] at hpending
          rcases hpending with ⟨rfl, rfl, rfl⟩
          left
          simpa [countsOf_concat] using hcut
        | cons head lower =>
          simp only [List.cons_append, List.cons.injEq] at hpending
          rcases hpending with ⟨rfl, hpending⟩
          right
          exact ⟨lower, first, second, upper, hpending, by simpa using hcut⟩

/-- The candidates of a feature stand between neighbours of the sorted rows. -/
theorem mem_candidatesOn_iff :
    cut ∈ t.candidatesOn config counts rows feature ↔
      ∃ lower row next upper, t.sortedBy feature rows = lower ++ row :: next :: upper ∧
        cutBetween? config counts rows.length feature (t.countsOf (lower ++ [row]))
          (lower ++ [row]).length (t.value feature row) (t.value feature next) = some cut :=
  mem_candidatesFrom_iff []

/-- Sorting neither loses nor adds rows. -/
theorem sortedBy_perm (t : TrainingTable α) (feature : ℕ) (rows : List ℕ) :
    (t.sortedBy feature rows).Perm rows :=
  List.mergeSort_perm rows _

/-- What a cut between two values asks for: the values differ, both sides have enough rows, and
the impurity decrease is worth mentioning. -/
theorem cutBetween?_eq_some_iff {left : ClassCounts α} {leftSize : ℕ} {value next : α} :
    cutBetween? config counts size feature left leftSize value next = some cut ↔
      ¬ next ≤ value ∧ config.minSamplesLeaf ≤ leftSize ∧
        config.minSamplesLeaf ≤ size - leftSize ∧ ¬ cut.gain ≤ Scalar.resolution ∧
        cut = ⟨feature, Cut.thresholdBetween value next,
          counts.weightedGini - (left.weightedGini + (counts.without left).weightedGini)⟩ := by
  unfold cutBetween?
  by_cases hle : next ≤ value
  · simp [hle]
  · by_cases hsize : leftSize < config.minSamplesLeaf ∨ size - leftSize < config.minSamplesLeaf
    · have hnot : ¬ (config.minSamplesLeaf ≤ leftSize ∧
          config.minSamplesLeaf ≤ size - leftSize) := by omega
      simp only [hle, hsize, Bool.or_eq_true, decide_eq_true_eq, if_true, if_false]
      simp only [reduceCtorEq, false_iff]
      exact fun h => hnot ⟨h.2.1, h.2.2.1⟩
    · have hlow : config.minSamplesLeaf ≤ leftSize := by omega
      have hhigh : config.minSamplesLeaf ≤ size - leftSize := by omega
      simp only [hle, hsize, hlow, hhigh, Bool.or_eq_true, decide_eq_true_eq, if_false,
        not_false_eq_true, true_and]
      constructor
      · intro h
        split_ifs at h with hgain
        cases h
        exact ⟨hgain, rfl⟩
      · rintro ⟨hgain, rfl⟩
        rw [if_neg hgain]

/-- The sizes of the two sides matter for the rows of a leaf only. -/
theorem cutBetween?_congr {left : ClassCounts α} {leftSize otherSize otherLeft : ℕ}
    {value next : α}
    (hleft : config.minSamplesLeaf ≤ leftSize ↔ config.minSamplesLeaf ≤ otherLeft)
    (hright : config.minSamplesLeaf ≤ size - leftSize ↔
      config.minSamplesLeaf ≤ otherSize - otherLeft) :
    cutBetween? config counts size feature left leftSize value next =
      cutBetween? config counts otherSize feature left otherLeft value next := by
  ext cut
  simp only [cutBetween?_eq_some_iff, hleft, hright]

/-! ## The order of candidates -/

/-- The candidates on a feature test it. -/
theorem feature_eq_of_mem_candidatesOn (h : cut ∈ t.candidatesOn config counts rows feature) :
    cut.feature = feature := by
  rcases mem_candidatesOn_iff.1 h with ⟨lower, row, next, upper, -, hcut⟩
  rcases cutBetween?_eq_some_iff.1 hcut with ⟨-, -, -, -, rfl⟩
  rfl

section Ascending

variable {β : Type} [Preorder β] {key : ℕ → β} {level : α → β}

/-- The threshold between two values lies between the keys of their rows. -/
def PartsKeys (t : TrainingTable α) (feature : ℕ) (key : ℕ → β) (level : α → β) : Prop :=
  ∀ row next, ¬ t.value feature next ≤ t.value feature row →
    key row ≤ level (Cut.thresholdBetween (t.value feature row) (t.value feature next)) ∧
      level (Cut.thresholdBetween (t.value feature row) (t.value feature next)) < key next

variable (hparts : t.PartsKeys feature key level) {left : ClassCounts α} {leftSize : ℕ}
  {pending : List ℕ}

include hparts

/-- The cuts that a sweep over sorted rows still meets are not below the next key. -/
theorem le_level_of_mem_candidatesFrom {row : ℕ}
    (h : (row :: pending).Pairwise fun row next => key row ≤ key next)
    (hcut : cut ∈ t.candidatesFrom config counts size feature left leftSize (row :: pending)) :
    key row ≤ level cut.threshold := by
  induction pending generalizing row left leftSize with
  | nil => simp [candidatesFrom] at hcut
  | cons next pending ih =>
    rw [List.pairwise_cons] at h
    rw [candidatesFrom, List.mem_append, Option.mem_toList] at hcut
    rcases hcut with hcut | hcut
    · rcases cutBetween?_eq_some_iff.1 hcut with ⟨hle, -, -, -, rfl⟩
      exact (hparts row next hle).1
    · exact (h.1 next List.mem_cons_self).trans (ih h.2 hcut)

/-- A sweep over sorted rows meets thresholds in ascending order. -/
theorem pairwise_candidatesFrom (h : pending.Pairwise fun row next => key row ≤ key next) :
    (t.candidatesFrom config counts size feature left leftSize pending).Pairwise
      fun cut later => level cut.threshold < level later.threshold := by
  induction pending generalizing left leftSize with
  | nil => exact List.Pairwise.nil
  | cons row pending ih =>
    cases pending with
    | nil => exact List.Pairwise.nil
    | cons next pending =>
      have htail := (List.pairwise_cons.1 h).2
      rw [candidatesFrom, List.pairwise_append]
      refine ⟨?_, ih htail, ?_⟩
      · cases cutBetween? config counts size feature (t.addRow left row) (leftSize + 1)
          (t.value feature row) (t.value feature next) <;> simp
      · intro cut hcut later hlater
        rcases cutBetween?_eq_some_iff.1 (Option.mem_toList.1 hcut) with ⟨hle, -, -, -, rfl⟩
        exact (hparts row next hle).2.trans_le (le_level_of_mem_candidatesFrom hparts htail hlater)

end Ascending

/-! ## The best cut -/

/-- The best cut is on a feature of the table, and its threshold lies between two of the rows. -/
theorem exists_neighbours_of_bestCut? {g after : Generator}
    (h : t.bestCut? config rows counts g = (some cut, after)) :
    cut.feature < t.width ∧ ∃ row ∈ rows, ∃ next ∈ rows,
      ¬ t.value cut.feature next ≤ t.value cut.feature row ∧
        cut.threshold =
          Cut.thresholdBetween (t.value cut.feature row) (t.value cut.feature next) := by
  rcases List.mem_flatMap.1 (mem_candidates_of_bestCut? h) with ⟨feature, hfeature, hcut⟩
  rcases mem_candidatesOn_iff.1 hcut with ⟨lower, row, next, upper, hsorted, hcut⟩
  rcases cutBetween?_eq_some_iff.1 hcut with ⟨hle, -, -, -, rfl⟩
  have hmem : ∀ other ∈ lower ++ row :: next :: upper, other ∈ rows := by
    rw [← hsorted]
    exact fun other hother => (t.sortedBy_perm feature rows).subset hother
  exact ⟨Generator.lt_of_mem_sample hfeature, row, hmem row (by simp), next, hmem next (by simp),
    hle, rfl⟩

end TrainingTable

end LeadScoring
