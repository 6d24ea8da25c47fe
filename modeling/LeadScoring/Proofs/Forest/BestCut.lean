import LeadScoring.Proofs.Forest.Candidates
import LeadScoring.Proofs.Forest.Sides
import LeadScoring.Proofs.Scalar.Exact

/-!
# The best cut

The search for a cut counts the rows on the left of a threshold as it moves them there one by one,
and it looks at one threshold for each pair of neighbouring values only.  This module defines the
gain of a threshold without a sweep, from the rows that are not above it, and proves that with exact
arithmetic the search finds the greatest gain of all real thresholds on the features drawn.

Main results:

- Definitions `TrainingTable.gainAt`, `TrainingTable.LeavesEnough`: what a threshold brings, counted
  from scratch.
- Theorem `TrainingTable.candidate_spec`: a candidate lies midway between two neighbouring values
  and has the gain of its threshold.
- Theorem `TrainingTable.exists_candidate`: each threshold of some gain parts the rows as a candidate
  does.
- Definition `TrainingTable.IsBestCut` and theorem `TrainingTable.bestCut?_isBestCut`: the search
  returns the best cut, or nothing if no threshold has a gain.
-/

namespace LeadScoring.TrainingTable

/-! ## Thresholds -/

section Definitions

variable (t : TrainingTable ℚ) (rows : List ℕ) (feature : ℕ) (threshold : ℝ)

/-- The rows whose value is at most a real threshold. -/
noncomputable def below : List ℕ :=
  rows.filter fun row => decide ((t.value feature row : ℝ) ≤ threshold)

/-- The rows whose value is above a real threshold. -/
noncomputable def above : List ℕ :=
  rows.filter fun row => !decide ((t.value feature row : ℝ) ≤ threshold)

/-- The weighted impurity of the rows, less that of the two sides of a threshold. -/
noncomputable def gainAt : ℚ :=
  (t.countsOf rows).weightedGini -
    ((t.countsOf (t.below rows feature threshold)).weightedGini +
      (t.countsOf (t.above rows feature threshold)).weightedGini)

/-- A threshold leaves as many rows on both sides as a leaf needs. -/
structure LeavesEnough (config : TreeConfig) : Prop where
  below : config.minSamplesLeaf ≤ (t.below rows feature threshold).length
  above : config.minSamplesLeaf ≤ (t.above rows feature threshold).length

/-- A threshold lies midway between two values of the rows that have no other one between them. -/
def LiesMidway (threshold : ℚ) : Prop :=
  ∃ row ∈ rows, ∃ next ∈ rows, t.value feature row < t.value feature next ∧
    (∀ other ∈ rows, t.value feature other ≤ t.value feature row ∨
      t.value feature next ≤ t.value feature other) ∧
    threshold = (t.value feature row + t.value feature next) / 2

/-- The best cut of some rows on some features.  Of several cuts with the greatest gain it is on the
earliest feature, and there it has the fewest rows on its left. -/
structure IsBestCut (config : TreeConfig) (features : List ℕ) (cut : Cut ℚ) : Prop where
  feature_mem : cut.feature ∈ features
  leavesEnough : t.LeavesEnough rows cut.feature cut.threshold config
  gain_eq : cut.gain = t.gainAt rows cut.feature cut.threshold
  resolution_lt : Scalar.resolution < cut.gain
  greatest : ∀ feature ∈ features, ∀ threshold : ℝ,
    t.LeavesEnough rows feature threshold config → t.gainAt rows feature threshold ≤ cut.gain
  earliest : ∀ feature ∈ features, ∀ threshold : ℝ,
    t.LeavesEnough rows feature threshold config → t.gainAt rows feature threshold = cut.gain →
      features.idxOf cut.feature ≤ features.idxOf feature
  fewest : ∀ threshold : ℝ, t.LeavesEnough rows cut.feature threshold config →
    t.gainAt rows cut.feature threshold = cut.gain →
      (t.below rows cut.feature cut.threshold).length ≤
        (t.below rows cut.feature threshold).length
  midway : t.LiesMidway rows cut.feature cut.threshold

end Definitions

variable {t : TrainingTable ℚ} {config : TreeConfig} {rows others features : List ℕ}
  {feature : ℕ} {threshold : ℝ}

/-! ## Exact counts -/

/-- Rows may be counted in any order. -/
theorem countsOf_perm (h : rows.Perm others) : t.countsOf rows = t.countsOf others := by
  refine h.foldl_eq' ?_ _
  intro a _ b _ c
  unfold addRow ClassCounts.add
  cases t.label a <;> cases t.label b <;> simp only [ClassCounts.mk.injEq, and_true, true_and] <;>
    exact add_right_comm _ _ _

/-- What is left of the counts of some rows without the first ones are the counts of the others. -/
theorem countsOf_append_without (rows others : List ℕ) :
    (t.countsOf (rows ++ others)).without (t.countsOf rows) = t.countsOf others := by
  induction others using List.reverseRecOn with
  | nil =>
    rw [List.append_nil]
    unfold ClassCounts.without
    exact congrArg₂ ClassCounts.mk (sub_self _) (sub_self _)
  | append_singleton others row ih =>
    rw [← List.append_assoc, countsOf_concat, countsOf_concat, ← ih]
    unfold addRow ClassCounts.add ClassCounts.without
    cases t.label row <;> simp only [ClassCounts.mk.injEq, and_true, true_and] <;>
      exact add_sub_right_comm _ _ _

theorem weightedGini_zero : (ClassCounts.zero : ClassCounts ℚ).weightedGini = 0 := by
  decide +kernel

/-! ## Thresholds of some gain -/

/-- A gain has to be positive to count. -/
theorem resolution_pos : (0 : ℚ) < Scalar.resolution := by
  decide +kernel

/-- A threshold of some gain has rows on both sides. -/
theorem sides_ne_nil_of_gainAt (h : Scalar.resolution < t.gainAt rows feature threshold) :
    t.below rows feature threshold ≠ [] ∧ t.above rows feature threshold ≠ [] := by
  have hpos : 0 < t.gainAt rows feature threshold := resolution_pos.trans h
  have hempty : (t.countsOf []).weightedGini = 0 := weightedGini_zero
  constructor
  · intro hbelow
    have habove : t.above rows feature threshold = rows := rowsUpTo_eq_nil_iff.1 hbelow
    simp [gainAt, hbelow, habove, hempty] at hpos
  · intro habove
    have hbelow : t.below rows feature threshold = rows := rowsBeyond_eq_nil_iff.1 habove
    simp [gainAt, habove, hbelow, hempty] at hpos

/-! ## Sorted rows -/

/-- Rows in the order of a feature. -/
def Ascending (t : TrainingTable ℚ) (feature : ℕ) (rows : List ℕ) : Prop :=
  rows.Pairwise fun row next => t.value feature row ≤ t.value feature next

/-- Sorting by a feature puts its values in order. -/
theorem ascending_sortedBy (t : TrainingTable ℚ) (feature : ℕ) (rows : List ℕ) :
    t.Ascending feature (t.sortedBy feature rows) := by
  have hle : ∀ x y : ℚ, Scalar.totalLe x y = true ↔ x ≤ y := by
    intro x y
    have hblt : Rat.blt y x = true ↔ y < x := Iff.rfl
    change (!Rat.blt y x) = true ↔ x ≤ y
    rw [Bool.not_eq_true', ← Bool.not_eq_true, hblt, not_lt]
  refine (List.pairwise_mergeSort ?_ ?_ rows).imp ?_
  · intro a b c hab hbc
    rw [hle] at *
    exact hab.trans hbc
  · intro a b
    rw [Bool.or_eq_true, hle, hle]
    exact le_total _ _
  · intro a b hab
    exact (hle _ _).1 hab

/-- Sorted rows are sorted by their values as real numbers. -/
theorem Ascending.keys {sorted : List ℕ} (h : t.Ascending feature sorted) :
    sorted.Pairwise fun row next => (t.value feature row : ℝ) ≤ t.value feature next :=
  h.imp fun hle => by exact_mod_cast hle

/-! ## Candidates -/

/-- Exactly computed, a threshold lies midway between two values. -/
theorem thresholdBetween_eq {value next : ℚ} (h : value < next) :
    Cut.thresholdBetween value next = (value + next) / 2 := by
  have htwo : (2.0 : ℚ) = 2 := by norm_num
  have hmiddle : value + (next - value) / 2.0 = (value + next) / 2 := by
    rw [htwo]
    ring
  have hlt : ¬ next ≤ (value + next) / 2 := by linarith
  unfold Cut.thresholdBetween
  change (if next ≤ value + (next - value) / 2.0 then value else value + (next - value) / 2.0) = _
  rw [hmiddle, if_neg hlt]

section Parts

variable {lower upper : List ℕ} {row next : ℕ}
  (hsorted : t.sortedBy feature rows = lower ++ row :: next :: upper)
  (hlow : (t.value feature row : ℝ) ≤ threshold) (hhigh : threshold < t.value feature next)

include hsorted hlow hhigh

/-- A threshold between two neighbours of the sorted rows parts the rows there. -/
theorem sides_perm_of_sortedBy :
    (t.below rows feature threshold).Perm (lower ++ [row]) ∧
      (t.above rows feature threshold).Perm (next :: upper) := by
  have hperm := t.sortedBy_perm feature rows
  have hascending := t.ascending_sortedBy feature rows
  rw [hsorted] at hperm hascending
  exact sides_perm_of_neighbours hascending.keys hperm hlow hhigh

/-- The sweep has counted the rows on the left of the threshold and takes them away from all rows to
count the others. -/
theorem gainAt_of_sortedBy :
    t.gainAt rows feature threshold =
      (t.countsOf rows).weightedGini - ((t.countsOf (lower ++ [row])).weightedGini +
        ((t.countsOf rows).without (t.countsOf (lower ++ [row]))).weightedGini) := by
  rcases sides_perm_of_sortedBy hsorted hlow hhigh with ⟨hbelow, habove⟩
  have hrows : t.countsOf rows = t.countsOf ((lower ++ [row]) ++ next :: upper) := by
    rw [← countsOf_perm (t.sortedBy_perm feature rows), hsorted]
    simp
  have hrest := countsOf_append_without (t := t) (lower ++ [row]) (next :: upper)
  rw [← hrows] at hrest
  rw [gainAt, countsOf_perm hbelow, countsOf_perm habove, hrest]

/-- The sweep's sizes of the two sides are those of a threshold between the neighbours. -/
theorem leavesEnough_of_sortedBy :
    t.LeavesEnough rows feature threshold config ↔
      config.minSamplesLeaf ≤ (lower ++ [row]).length ∧
        config.minSamplesLeaf ≤ rows.length - (lower ++ [row]).length := by
  rcases sides_perm_of_sortedBy hsorted hlow hhigh with ⟨hbelow, habove⟩
  have hlength : rows.length = (lower ++ [row]).length + (next :: upper).length := by
    rw [← (t.sortedBy_perm feature rows).length_eq, hsorted]
    simp only [List.length_append, List.length_cons, List.length_nil]
    omega
  rw [hlength, Nat.add_sub_cancel_left, ← hbelow.length_eq, ← habove.length_eq]
  exact ⟨fun h => ⟨h.below, h.above⟩, fun h => ⟨h.1, h.2⟩⟩

end Parts

/-- Values of sorted rows do not lie between two neighbours. -/
theorem liesMidway_of_sortedBy {lower upper : List ℕ} {row next : ℕ}
    (hsorted : t.sortedBy feature rows = lower ++ row :: next :: upper)
    (hlt : t.value feature row < t.value feature next) :
    t.LiesMidway rows feature ((t.value feature row + t.value feature next) / 2) := by
  have hmem : ∀ {other}, other ∈ rows ↔ other ∈ lower ++ row :: next :: upper := by
    intro other
    rw [← hsorted, (t.sortedBy_perm feature rows).mem_iff]
  have hascending := t.ascending_sortedBy feature rows
  rw [hsorted, Ascending, List.pairwise_append, List.pairwise_cons, List.pairwise_cons] at hascending
  rcases hascending with ⟨-, ⟨-, hupper, -⟩, hlower⟩
  refine ⟨row, hmem.2 (by simp), next, hmem.2 (by simp), hlt, ?_, rfl⟩
  intro other hother
  rcases List.mem_append.1 (hmem.1 hother) with hother | hother
  · exact Or.inl (hlower other hother row (by simp))
  · rcases List.mem_cons.1 hother with rfl | hother
    · exact Or.inl le_rfl
    · rcases List.mem_cons.1 hother with rfl | hother
      · exact Or.inr le_rfl
      · exact Or.inr (hupper other hother)

/-- Between two different values there is their middle. -/
theorem middle_between {value next : ℚ} (h : value < next) :
    (value : ℝ) ≤ ((value + next) / 2 : ℚ) ∧ (((value + next) / 2 : ℚ) : ℝ) < next := by
  have hlow : value ≤ (value + next) / 2 := by linarith
  have hhigh : (value + next) / 2 < next := by linarith
  exact ⟨by exact_mod_cast hlow, by exact_mod_cast hhigh⟩

/-- A candidate lies midway between two neighbouring values, leaves enough rows on both sides and has
the gain of its threshold. -/
theorem candidate_spec {cut : Cut ℚ}
    (h : cut ∈ t.candidatesOn config (t.countsOf rows) rows feature) :
    cut.feature = feature ∧ t.LeavesEnough rows feature cut.threshold config ∧
      cut.gain = t.gainAt rows feature cut.threshold ∧ Scalar.resolution < cut.gain ∧
      t.LiesMidway rows feature cut.threshold := by
  rcases mem_candidatesOn_iff.1 h with ⟨lower, row, next, upper, hsorted, hcut⟩
  rcases cutBetween?_eq_some_iff.1 hcut with ⟨hlt, hbelow, habove, hgain, rfl⟩
  have hlt : t.value feature row < t.value feature next := not_le.1 hlt
  rcases middle_between hlt with ⟨hlow, hhigh⟩
  dsimp only at hgain ⊢
  rw [thresholdBetween_eq hlt]
  exact ⟨rfl, (leavesEnough_of_sortedBy hsorted hlow hhigh).2 ⟨hbelow, habove⟩,
    (gainAt_of_sortedBy hsorted hlow hhigh).symm, not_le.1 hgain,
    liesMidway_of_sortedBy hsorted hlt⟩

/-- A threshold of some gain that leaves enough rows on both sides parts the rows as a candidate
does. -/
theorem exists_candidate (hleaves : t.LeavesEnough rows feature threshold config)
    (hgain : Scalar.resolution < t.gainAt rows feature threshold) :
    ∃ cut ∈ t.candidatesOn config (t.countsOf rows) rows feature,
      cut.gain = t.gainAt rows feature threshold ∧
        (t.below rows feature cut.threshold).length = (t.below rows feature threshold).length := by
  rcases sides_ne_nil_of_gainAt hgain with ⟨hbelow, habove⟩
  rcases exists_neighbours (t.ascending_sortedBy feature rows).keys
      (t.sortedBy_perm feature rows) hbelow habove with
    ⟨lower, row, next, upper, hsorted, hlow, hhigh⟩
  have hlt : t.value feature row < t.value feature next := by exact_mod_cast hlow.trans_lt hhigh
  rcases middle_between hlt with ⟨hmiddleLow, hmiddleHigh⟩
  have hgain_eq := gainAt_of_sortedBy hsorted hlow hhigh
  refine ⟨⟨feature, (t.value feature row + t.value feature next) / 2,
    t.gainAt rows feature threshold⟩, ?_, rfl, ?_⟩
  · rcases (leavesEnough_of_sortedBy hsorted hlow hhigh).1 hleaves with ⟨hleft, hright⟩
    refine mem_candidatesOn_iff.2 ⟨lower, row, next, upper, hsorted, ?_⟩
    rw [cutBetween?_eq_some_iff, thresholdBetween_eq hlt]
    refine ⟨not_le.2 hlt, hleft, hright, not_le.2 hgain, ?_⟩
    rw [hgain_eq]
  · rw [(sides_perm_of_sortedBy hsorted hlow hhigh).1.length_eq,
      (sides_perm_of_sortedBy hsorted hmiddleLow hmiddleHigh).1.length_eq]

/-! ## The order of candidates -/

/-- A threshold parts the two values that it stands between. -/
theorem partsKeys (t : TrainingTable ℚ) (feature : ℕ) :
    t.PartsKeys feature (t.value feature) id := by
  intro row next hle
  have hlt : t.value feature row < t.value feature next := not_le.1 hle
  rw [thresholdBetween_eq hlt, id]
  constructor <;> linarith

/-- Candidates come in the order of their features, and on one feature in ascending order. -/
theorem pairwise_candidates {counts : ClassCounts ℚ} (h : features.Nodup) :
    (t.candidates config counts rows features).Pairwise fun cut later =>
      features.idxOf cut.feature ≤ features.idxOf later.feature ∧
        (cut.feature = later.feature → cut.threshold ≤ later.threshold) := by
  rw [candidates, List.pairwise_flatMap]
  constructor
  · intro feature _
    refine (pairwise_candidatesFrom (t.partsKeys feature)
      (t.ascending_sortedBy feature rows)).imp_of_mem ?_
    intro cut later hcut hlater hlt
    rw [feature_eq_of_mem_candidatesOn hcut, feature_eq_of_mem_candidatesOn hlater]
    exact ⟨le_rfl, fun _ => hlt.le⟩
  · rw [List.pairwise_iff_getElem]
    intro i j hi hj hij cut hcut later hlater
    rw [feature_eq_of_mem_candidatesOn hcut, feature_eq_of_mem_candidatesOn hlater,
      h.idxOf_getElem i hi, h.idxOf_getElem j hj]
    exact ⟨hij.le, fun heq => absurd ((h.getElem_inj_iff).1 heq) hij.ne⟩

/-! ## The search -/

/-- Keeping the better of two cuts is a step of searching for the greatest gain. -/
theorem better_eq_argAux :
    (Cut.better : Option (Cut ℚ) → Cut ℚ → Option (Cut ℚ)) =
      List.argAux fun later cut => cut.gain < later.gain := by
  funext best cut
  cases best <;> rfl

/-- The search picks the first candidate of the greatest gain. -/
theorem bestCutOn?_eq_argmax {counts : ClassCounts ℚ} :
    t.bestCutOn? config rows counts features =
      List.argmax Cut.gain (t.candidates config counts rows features) := by
  rw [bestCutOn?_eq_foldl, better_eq_argAux]
  rfl

/-- What stands no later in a list is related to what stands no earlier. -/
theorem rel_of_idxOf_le {β : Type} [DecidableEq β] {R : β → β → Prop} {xs : List β}
    (h : xs.Pairwise R) (hrefl : ∀ x, R x x) {x y : β} (hx : x ∈ xs) (hy : y ∈ xs)
    (hle : xs.idxOf x ≤ xs.idxOf y) : R x y := by
  rcases hle.lt_or_eq with hlt | heq
  · have hrel := List.pairwise_iff_getElem.1 h _ _ (List.idxOf_lt_length_iff.2 hx)
      (List.idxOf_lt_length_iff.2 hy) hlt
    simpa using hrel
  · rw [(List.idxOf_inj hx).1 heq]
    exact hrefl y

/-- A lower threshold has no more rows below it. -/
theorem length_below_mono {threshold greater : ℝ} (h : threshold ≤ greater) :
    (t.below rows feature threshold).length ≤ (t.below rows feature greater).length := by
  apply List.Sublist.length_le
  apply List.monotone_filter_right
  intro row hrow
  simp only [decide_eq_true_eq] at hrow ⊢
  exact hrow.trans h

/-- A candidate of the greatest gain that no other one precedes is the best cut. -/
theorem isBestCut_of_argmax (hnodup : features.Nodup) {cut : Cut ℚ}
    (h : cut ∈ List.argmax Cut.gain (t.candidates config (t.countsOf rows) rows features)) :
    t.IsBestCut rows config features cut := by
  rcases List.mem_argmax_iff.1 h with ⟨hmem, hgreatest, hfirst⟩
  rcases List.mem_flatMap.1 hmem with ⟨feature, hfeature, hcandidate⟩
  rcases candidate_spec hcandidate with ⟨rfl, hleaves, hgain, hresolution, hmidway⟩
  -- A threshold of the same gain stands for a candidate that does not precede the cut.
  have hbehind : ∀ other ∈ features, ∀ threshold : ℝ,
      t.LeavesEnough rows other threshold config → t.gainAt rows other threshold = cut.gain →
        ∃ later : Cut ℚ, later.feature = other ∧
          (t.below rows other later.threshold).length = (t.below rows other threshold).length ∧
          features.idxOf cut.feature ≤ features.idxOf later.feature ∧
          (cut.feature = later.feature → cut.threshold ≤ later.threshold) := by
    intro other hother threshold hother_leaves hother_gain
    rcases exists_candidate hother_leaves (hother_gain ▸ hresolution) with
      ⟨later, hlater, hlater_gain, hlater_below⟩
    have hlater_mem : later ∈ t.candidates config (t.countsOf rows) rows features :=
      List.mem_flatMap.2 ⟨other, hother, hlater⟩
    have hle := hfirst later hlater_mem (hlater_gain.trans hother_gain).ge
    exact ⟨later, feature_eq_of_mem_candidatesOn hlater, hlater_below,
      rel_of_idxOf_le (pairwise_candidates hnodup) (fun _ => ⟨le_rfl, fun _ => le_rfl⟩) hmem
        hlater_mem hle⟩
  refine ⟨hfeature, hleaves, hgain, hresolution, ?_, ?_, ?_, hmidway⟩
  · intro other hother threshold hother_leaves
    by_cases hother_gain : Scalar.resolution < t.gainAt rows other threshold
    · rcases exists_candidate hother_leaves hother_gain with ⟨later, hlater, hlater_gain, -⟩
      rw [← hlater_gain]
      exact hgreatest later (List.mem_flatMap.2 ⟨other, hother, hlater⟩)
    · exact (not_lt.1 hother_gain).trans hresolution.le
  · intro other hother threshold hother_leaves hother_gain
    rcases hbehind other hother threshold hother_leaves hother_gain with ⟨later, rfl, -, hle, -⟩
    exact hle
  · intro threshold hother_leaves hother_gain
    rcases hbehind cut.feature hfeature threshold hother_leaves hother_gain with
      ⟨later, hlater, hbelow, -, hle⟩
    rw [← hbelow]
    exact length_below_mono (by exact_mod_cast hle hlater.symm)

/-- The search among the features drawn returns the best cut of the rows.  It returns nothing exactly
if no threshold that leaves enough rows on both sides has a gain worth mentioning. -/
theorem bestCut?_isBestCut (t : TrainingTable ℚ) (config : TreeConfig) (rows : List ℕ)
    (g : Generator) :
    let features := (g.sample t.width (config.maxFeatures.resolve t.width)).1
    let found := (t.bestCut? config rows (t.countsOf rows) g).1
    (∀ cut ∈ found, t.IsBestCut rows config features cut) ∧
      (found = none ↔ ∀ feature ∈ features, ∀ threshold : ℝ,
        t.LeavesEnough rows feature threshold config →
          t.gainAt rows feature threshold ≤ Scalar.resolution) := by
  intro features found
  have hfound : found = List.argmax Cut.gain
      (t.candidates config (t.countsOf rows) rows features) := bestCutOn?_eq_argmax
  have hnodup : features.Nodup := Generator.nodup_sample g _ _
  have hbest : ∀ cut ∈ found, t.IsBestCut rows config features cut := by
    intro cut hcut
    rw [hfound] at hcut
    exact isBestCut_of_argmax hnodup hcut
  refine ⟨hbest, ?_, ?_⟩
  · intro hnone feature hfeature threshold hleaves
    by_contra hgain
    rcases exists_candidate hleaves (not_le.1 hgain) with ⟨cut, hcut, -⟩
    rw [hfound, List.argmax_eq_none] at hnone
    have hmem : cut ∈ t.candidates config (t.countsOf rows) rows features :=
      List.mem_flatMap.2 ⟨feature, hfeature, hcut⟩
    simp [hnone] at hmem
  · intro hall
    by_contra hsome
    rcases Option.ne_none_iff_exists'.1 hsome with ⟨cut, hcut⟩
    have hcut := hbest cut hcut
    have hle := hall cut.feature hcut.feature_mem cut.threshold hcut.leavesEnough
    rw [← hcut.gain_eq] at hle
    exact absurd hcut.resolution_lt (not_lt.2 hle)

end LeadScoring.TrainingTable
