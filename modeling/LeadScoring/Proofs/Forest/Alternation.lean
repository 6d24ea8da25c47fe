import LeadScoring.Proofs.Forest.BestCut
import LeadScoring.Proofs.Forest.Drawing
import LeadScoring.Proofs.Forest.Purity

/-!
# Trees on rows with alternating labels

Along a single feature the labels of some rows alternate.  A cut leaves alternating rows on both
sides, and the impurity of such rows depends on their number only: it is one half of it, or a little
less if the number is odd.  So no cut gains more than the one behind the first row, which is the one
that the search takes.  Growth parts off one row after the other, and the tree has a split for each
row but the last one.

Main results:

- Theorem `ClassCounts.weightedGini_alternating`: the impurity of alternating labels.
- Definition `TrainingTable.Alternates` and theorem
  `TrainingTable.Alternates.threshold_of_bestCut?`: the search parts off the first row.
- Definition `comb` and theorem `TrainingTable.Alternates.eq_comb`: the tree that is grown.
-/

namespace LeadScoring

/-! ## Impurity of alternating labels -/

/-- Labels that alternate with the natural numbers. -/
def Label.ofParity (n : ℕ) : Label :=
  if n % 2 = 0 then .negative else .positive

namespace ClassCounts

variable {q p : ℕ}

/-- The impurity of whole counts. -/
theorem gini_natCast (h : 0 < q + p) :
    (⟨q, p⟩ : ClassCounts ℚ).gini = 2 * q * p / ((q + p) * (q + p)) := by
  have hpos : (0 : ℚ) < q + p := by exact_mod_cast h
  have htotal : ¬ ((q : ℚ) + p ≤ 0) := not_le.2 hpos
  have hgini : (⟨q, p⟩ : ClassCounts ℚ).gini =
      1 - p / (q + p) * (p / (q + p)) - q / (q + p) * (q / (q + p)) :=
    if_neg htotal
  rw [hgini]
  field_simp
  ring

/-- The weighted impurity of whole counts. -/
theorem weightedGini_natCast (q p : ℕ) :
    (⟨q, p⟩ : ClassCounts ℚ).weightedGini = 2 * q * p / (q + p) := by
  change ((q : ℚ) + p) * (⟨q, p⟩ : ClassCounts ℚ).gini = _
  rcases Nat.eq_zero_or_pos (q + p) with hzero | hpos
  · rcases Nat.add_eq_zero_iff.1 hzero with ⟨rfl, rfl⟩
    simp
  · have hne : (q : ℚ) + p ≠ 0 := by exact_mod_cast hpos.ne'
    rw [gini_natCast hpos]
    field_simp

/-- The counts of the labels of `count` numbers from `first` on. -/
def alternating (first count : ℕ) : ClassCounts ℚ :=
  ⟨((first + count + 1) / 2 - (first + 1) / 2 : ℕ), ((first + count) / 2 - first / 2 : ℕ)⟩

/-- Alternating labels are counted one by one. -/
theorem of_alternating (first count : ℕ) (label : Label) :
    (alternating first count).of label = ((List.range' first count).map fun n =>
      if Label.ofParity n = label then (1 : ℚ) else 0).sum := by
  induction count with
  | zero => cases label <;> simp [alternating, of]
  | succ count ih =>
    rw [List.range'_1_concat, List.map_append, List.sum_append, ← ih, List.map_singleton,
      List.sum_singleton]
    rcases Nat.mod_two_eq_zero_or_one (first + count) with heven | hodd
    · have hnegative : (first + (count + 1) + 1) / 2 - (first + 1) / 2 =
          (first + count + 1) / 2 - (first + 1) / 2 + 1 := by omega
      have hpositive : (first + (count + 1)) / 2 - first / 2 =
          (first + count) / 2 - first / 2 := by omega
      cases label <;> simp [alternating, of, Label.ofParity, heven, hnegative, hpositive]
    · have hnegative : (first + (count + 1) + 1) / 2 - (first + 1) / 2 =
          (first + count + 1) / 2 - (first + 1) / 2 := by omega
      have hpositive : (first + (count + 1)) / 2 - first / 2 =
          (first + count) / 2 - first / 2 + 1 := by omega
      cases label <;> simp [alternating, of, Label.ofParity, hodd, hnegative, hpositive]

/-- One half of a number, less a half of its inverse if it is odd. -/
def alternatingImpurity (count : ℕ) : ℚ :=
  (count - (count % 2 : ℕ) / count) / 2

/-- The impurity of alternating labels depends on their number only. -/
theorem weightedGini_alternating (first count : ℕ) :
    (alternating first count).weightedGini = alternatingImpurity count := by
  rw [alternating, weightedGini_natCast, alternatingImpurity]
  generalize hq : (first + count + 1) / 2 - (first + 1) / 2 = q
  generalize hp : (first + count) / 2 - first / 2 = p
  obtain ⟨rfl, hcount⟩ | ⟨rfl, hcount⟩ | ⟨rfl, hcount⟩ :
      (q = p ∧ count = 2 * p) ∨ (q = p + 1 ∧ count = 2 * p + 1) ∨
        (p = q + 1 ∧ count = 2 * q + 1) := by omega
  · have hmod : count % 2 = 0 := by omega
    rw [hmod, hcount]
    rcases Nat.eq_zero_or_pos q with rfl | hpos
    · simp
    · have hne : (q : ℚ) ≠ 0 := by exact_mod_cast hpos.ne'
      push_cast
      field_simp
      ring
  · have hmod : count % 2 = 1 := by omega
    rw [hmod, hcount]
    push_cast
    field_simp
    ring
  · have hmod : count % 2 = 1 := by omega
    rw [hmod, hcount]
    push_cast
    field_simp
    ring

theorem alternatingImpurity_one : alternatingImpurity 1 = 0 := by
  norm_num [alternatingImpurity]

/-- What an odd number is short of one half is at most a quarter from two on. -/
theorem remainder_div_le (count : ℕ) :
    ((count + 2) % 2 : ℕ) / ((count + 2 : ℕ) : ℚ) ≤ 1 / 2 := by
  have hmod : (((count + 2) % 2 : ℕ) : ℚ) ≤ 1 := by
    exact_mod_cast Nat.lt_succ_iff.1 (Nat.mod_lt (count + 2) two_pos)
  rw [div_le_div_iff₀ (by positivity) two_pos]
  push_cast
  have hcount : (0 : ℚ) ≤ count := Nat.cast_nonneg count
  linarith

/-- Parting off one of several alternating labels has a gain. -/
theorem resolution_lt_gain (count : ℕ) :
    Scalar.resolution < alternatingImpurity (count + 2) -
      (alternatingImpurity 1 + alternatingImpurity (count + 1)) := by
  have hresolution : (Scalar.resolution : ℚ) < 1 / 4 := by decide +kernel
  have hrest : (0 : ℚ) ≤ ((count + 1) % 2 : ℕ) / (count + 1 : ℕ) := by positivity
  have hremainder := remainder_div_le count
  refine hresolution.trans_le ?_
  rw [alternatingImpurity_one, alternatingImpurity, alternatingImpurity]
  push_cast at hremainder hrest ⊢
  linarith

/-- What two numbers are short of one half together exceeds what the number behind a single one of
them is short of by one at most. -/
theorem remainders_le (lower upper : ℕ) :
    ((lower + 1) % 2 : ℕ) / ((lower : ℚ) + 1) + ((upper + 1) % 2 : ℕ) / ((upper : ℚ) + 1) ≤
      1 + ((lower + upper + 1) % 2 : ℕ) / ((lower : ℚ) + upper + 1) := by
  have hlower : (0 : ℚ) ≤ lower := Nat.cast_nonneg lower
  have hupper : (0 : ℚ) ≤ upper := Nat.cast_nonneg upper
  have hone : ∀ x : ℚ, 0 ≤ x → 1 / (x + 1) ≤ 1 := fun x hx => by
    rw [div_le_one (by linarith)]
    linarith
  rcases (by omega : ((lower + 1) % 2 = 1 ∧ (upper + 1) % 2 = 1 ∧ (lower + upper + 1) % 2 = 1) ∨
    ((lower + 1) % 2 = 1 ∧ (upper + 1) % 2 = 0) ∨ ((lower + 1) % 2 = 0 ∧ (upper + 1) % 2 = 1) ∨
      ((lower + 1) % 2 = 0 ∧ (upper + 1) % 2 = 0)) with
    ⟨hl, hu, hrest⟩ | ⟨hl, hu⟩ | ⟨hl, hu⟩ | ⟨hl, hu⟩
  · -- With two odd parts the number behind a single one is odd too.
    have hleft : 1 - 1 / ((lower : ℚ) + 1) = lower / (lower + 1) := by
      field_simp
      ring
    have hright : 1 / ((upper : ℚ) + 1) - 1 / (lower + upper + 1) =
        lower / ((upper + 1) * (lower + upper + 1)) := by
      field_simp
      ring
    have hle : lower / (((upper : ℚ) + 1) * (lower + upper + 1)) ≤ lower / (lower + 1) :=
      div_le_div_of_nonneg_left hlower (by linarith) (by nlinarith)
    rw [hl, hu, hrest, Nat.cast_one]
    linarith
  · rw [hl, hu, Nat.cast_one, Nat.cast_zero, zero_div, add_zero]
    exact (hone lower hlower).trans (le_add_of_nonneg_right (by positivity))
  · rw [hl, hu, Nat.cast_one, Nat.cast_zero, zero_div, zero_add]
    exact (hone upper hupper).trans (le_add_of_nonneg_right (by positivity))
  · rw [hl, hu, Nat.cast_zero, zero_div, zero_div, zero_add]
    positivity

/-- No part of alternating labels is parted off with a greater gain than a single one. -/
theorem alternatingImpurity_le (lower upper : ℕ) :
    alternatingImpurity 1 + alternatingImpurity (lower + upper + 1) ≤
      alternatingImpurity (lower + 1) + alternatingImpurity (upper + 1) := by
  have hremainders := remainders_le lower upper
  rw [alternatingImpurity_one, alternatingImpurity, alternatingImpurity, alternatingImpurity]
  push_cast at hremainders ⊢
  linarith

/-- The impurity of several alternating labels shows. -/
theorem resolution_lt_gini_alternating (first count : ℕ) :
    Scalar.resolution < (alternating first (count + 2)).gini := by
  have hresolution : (Scalar.resolution : ℚ) < 1 / 4 := by decide +kernel
  have htotal : (alternating first (count + 2)).total = (count : ℚ) + 2 := by
    change (((first + (count + 2) + 1) / 2 - (first + 1) / 2 : ℕ) : ℚ) +
      ((first + (count + 2)) / 2 - first / 2 : ℕ) = _
    have hsum : (first + (count + 2) + 1) / 2 - (first + 1) / 2 +
        ((first + (count + 2)) / 2 - first / 2) = count + 2 := by omega
    exact_mod_cast hsum
  have hweighted := weightedGini_alternating first (count + 2)
  rw [weightedGini, htotal, alternatingImpurity] at hweighted
  have hremainder := remainder_div_le count
  have hcount : (0 : ℚ) ≤ count := Nat.cast_nonneg count
  refine hresolution.trans_le ?_
  push_cast at hweighted hremainder
  nlinarith

/-- A single label is pure. -/
theorem gini_alternating_one_le (first : ℕ) :
    (alternating first 1).gini ≤ Scalar.resolution := by
  rw [alternating]
  generalize hq : (first + 1 + 1) / 2 - (first + 1) / 2 = q
  generalize hp : (first + 1) / 2 - first / 2 = p
  obtain ⟨rfl, rfl⟩ | ⟨rfl, rfl⟩ : (q = 1 ∧ p = 0) ∨ (q = 0 ∧ p = 1) := by omega
  · decide +kernel
  · decide +kernel

end ClassCounts

/-- Growth that goes on as long as a cut has a gain: it looks at all features, and splits and leaves
may be small and stand at any depth. -/
structure TreeConfig.IsUnlimited (config : TreeConfig) : Prop where
  maxDepth_eq : config.maxDepth = none
  minSamplesSplit_le : config.minSamplesSplit ≤ 2
  minSamplesLeaf_le : config.minSamplesLeaf ≤ 1
  maxFeatures_eq : config.maxFeatures = .all

/-- The tree that parts off the numbers from `first` on, each of them on the left of a split. -/
def comb : ℕ → ℕ → DecisionTree ℚ
  | first, 0 => .leaf (.alternating first 1)
  | first, count + 1 =>
    .split 0 (first + 1 / 2) (.alternating first (count + 2)) (.leaf (.alternating first 1))
      (comb (first + 1) count)

namespace TrainingTable

variable {t : TrainingTable ℚ} {config : TreeConfig} {place : ℕ → ℕ} {rows : List ℕ}
  {first count lower upper depth : ℕ} {tree : DecisionTree ℚ}

/-! ## Alternating rows -/

/-- Rows of weight one with a single feature.  Its values are `count` numbers from `first` on, and
the labels alternate with them. -/
structure Alternates (t : TrainingTable ℚ) (place : ℕ → ℕ) (rows : List ℕ) (first count : ℕ) :
    Prop where
  width_eq : t.width = 1
  weight_eq : ∀ row ∈ rows, t.weight row = 1
  value_eq : ∀ row ∈ rows, t.value 0 row = place row
  label_eq : ∀ row ∈ rows, t.label row = .ofParity (place row)
  places_perm : (rows.map place).Perm (List.range' first count)

namespace Alternates

theorem length_eq (h : t.Alternates place rows first count) : rows.length = count := by
  simpa using h.places_perm.length_eq

theorem place_mem_iff (h : t.Alternates place rows first count) {n : ℕ} :
    (∃ row ∈ rows, place row = n) ↔ first ≤ n ∧ n < first + count := by
  rw [← List.mem_map, h.places_perm.mem_iff, List.mem_range'_1]

/-- Alternating rows have alternating counts. -/
theorem countsOf_eq (h : t.Alternates place rows first count) :
    t.countsOf rows = .alternating first count := by
  have hof : ∀ label, (t.countsOf rows).of label =
      (ClassCounts.alternating first count).of label := by
    intro label
    rw [of_countsOf, ClassCounts.of_alternating, ← (h.places_perm.map _).sum_eq, List.map_map]
    congr 1
    refine List.map_congr_left fun row hrow => ?_
    rw [h.weight_eq row hrow, h.label_eq row hrow, Function.comp_apply]
  exact congrArg₂ ClassCounts.mk (hof .negative) (hof .positive)

/-- A test between two places leaves alternating rows on both sides. -/
theorem sides (h : t.Alternates place rows first (lower + upper)) {p : ℕ → Bool}
    (hp : ∀ row ∈ rows, p row = decide (place row < first + lower)) :
    t.Alternates place (rows.filter p) first lower ∧
      t.Alternates place (rows.filter fun row => !p row) (first + lower) upper := by
  have hparts : List.range' first (lower + upper) =
      List.range' first lower ++ List.range' (first + lower) upper :=
    List.range'_append_1.symm
  have hlow : ∀ n ∈ List.range' first lower, decide (n < first + lower) = true := fun n hn =>
    decide_eq_true (List.mem_range'_1.1 hn).2
  have hhigh : ∀ n ∈ List.range' (first + lower) upper, decide (n < first + lower) = false :=
    fun n hn => decide_eq_false (not_lt.2 (List.mem_range'_1.1 hn).1)
  have hfilter : ∀ q : ℕ → Bool, ((rows.filter (q ∘ place)).map place).Perm
      ((List.range' first lower).filter q ++ (List.range' (first + lower) upper).filter q) := by
    intro q
    rw [← List.filter_map, ← List.filter_append, ← hparts]
    exact h.places_perm.filter q
  rw [List.filter_congr hp, List.filter_congr fun row hrow => congrArg Bool.not (hp row hrow)]
  refine ⟨⟨h.width_eq, fun row hrow => h.weight_eq row (List.mem_of_mem_filter hrow),
    fun row hrow => h.value_eq row (List.mem_of_mem_filter hrow),
    fun row hrow => h.label_eq row (List.mem_of_mem_filter hrow), ?_⟩,
    ⟨h.width_eq, fun row hrow => h.weight_eq row (List.mem_of_mem_filter hrow),
    fun row hrow => h.value_eq row (List.mem_of_mem_filter hrow),
    fun row hrow => h.label_eq row (List.mem_of_mem_filter hrow), ?_⟩⟩
  · have hnone : (List.range' (first + lower) upper).filter (fun n => decide (n < first + lower)) =
        [] :=
      List.filter_eq_nil_iff.2 fun n hn => by rw [hhigh n hn]; exact Bool.false_ne_true
    have hperm := hfilter fun n => decide (n < first + lower)
    rw [List.filter_eq_self.2 hlow, hnone, List.append_nil] at hperm
    exact hperm
  · have hnone : (List.range' first lower).filter (fun n => !decide (n < first + lower)) = [] :=
      List.filter_eq_nil_iff.2 fun n hn => by rw [hlow n hn]; exact Bool.false_ne_true
    have hall : (List.range' (first + lower) upper).filter (fun n => !decide (n < first + lower)) =
        List.range' (first + lower) upper :=
      List.filter_eq_self.2 fun n hn => by rw [hhigh n hn]; rfl
    have hperm := hfilter fun n => !decide (n < first + lower)
    rw [hnone, hall, List.nil_append] at hperm
    exact hperm

/-! ## Cuts -/

/-- A threshold behind a place is not below the values up to there. -/
theorem passes_eq (h : t.Alternates place rows first count) (lower : ℕ) :
    ∀ row ∈ rows, decide (t.value 0 row ≤ (first + lower + 1 / 2 : ℚ)) =
      decide (place row < first + (lower + 1)) := by
  intro row hrow
  rw [h.value_eq row hrow, decide_eq_decide]
  constructor
  · intro hle
    by_contra hlt
    have hcast : (first : ℚ) + (lower + 1) ≤ place row := by exact_mod_cast not_lt.1 hlt
    linarith
  · intro hlt
    have hcast : (place row : ℚ) ≤ first + lower := by exact_mod_cast (by omega)
    linarith

/-- What the cut behind a place gains, and how many rows it leaves on both sides. -/
theorem gainAt_eq (h : t.Alternates place rows first count) (lower upper : ℕ)
    (hcount : lower + 1 + (upper + 1) = count) :
    t.gainAt rows 0 (first + lower + 1 / 2 : ℚ) =
        ClassCounts.alternatingImpurity count - (ClassCounts.alternatingImpurity (lower + 1) +
          ClassCounts.alternatingImpurity (upper + 1)) ∧
      (t.below rows 0 (first + lower + 1 / 2 : ℚ)).length = lower + 1 ∧
      (t.above rows 0 (first + lower + 1 / 2 : ℚ)).length = upper + 1 := by
  subst hcount
  rcases h.sides (h.passes_eq lower) with ⟨hlower, hupper⟩
  have hbelow : t.below rows 0 (first + lower + 1 / 2 : ℚ) =
      rows.filter fun row => decide (t.value 0 row ≤ (first + lower + 1 / 2 : ℚ)) := by
    simp only [below, Rat.cast_le]
  have habove : t.above rows 0 (first + lower + 1 / 2 : ℚ) =
      rows.filter fun row => !decide (t.value 0 row ≤ (first + lower + 1 / 2 : ℚ)) := by
    simp only [above, Rat.cast_le]
  refine ⟨?_, ?_, ?_⟩
  · rw [gainAt, hbelow, habove, h.countsOf_eq, hlower.countsOf_eq, hupper.countsOf_eq,
      ClassCounts.weightedGini_alternating, ClassCounts.weightedGini_alternating,
      ClassCounts.weightedGini_alternating]
  · rw [hbelow, hlower.length_eq]
  · rw [habove, hupper.length_eq]

/-- The cut behind the first of several rows leaves enough rows on both sides. -/
theorem leavesEnough (h : t.Alternates place rows first (count + 2))
    (hconfig : config.IsUnlimited) :
    t.LeavesEnough rows 0 (first + (0 : ℕ) + 1 / 2 : ℚ) config := by
  rcases h.gainAt_eq 0 count (by omega) with ⟨-, hbelow, habove⟩
  have hleaf := hconfig.minSamplesLeaf_le
  exact ⟨by omega, by omega⟩

/-- The only feature is drawn. -/
theorem zero_mem_sample (h : t.Alternates place rows first count) (hconfig : config.IsUnlimited)
    (g : Generator) : 0 ∈ (g.sample t.width (config.maxFeatures.resolve t.width)).1 :=
  mem_sample_all hconfig.maxFeatures_eq g (h.width_eq ▸ one_pos)

/-- A cut of several rows is found. -/
theorem bestCut?_ne_none (h : t.Alternates place rows first (count + 2))
    (hconfig : config.IsUnlimited) (g : Generator) :
    (t.bestCut? config rows (t.countsOf rows) g).1 ≠ none := by
  intro hnone
  have hsmall := (bestCut?_isBestCut t config rows g).2.1 hnone 0 (h.zero_mem_sample hconfig g) _
    (h.leavesEnough hconfig)
  rw [(h.gainAt_eq 0 count (by omega)).1] at hsmall
  exact absurd (ClassCounts.resolution_lt_gain count) (not_lt.2 hsmall)

/-- Two rows that no row lies between have places that follow one another. -/
theorem place_eq_succ (h : t.Alternates place rows first count) {row next : ℕ} (hrow : row ∈ rows)
    (hnext : next ∈ rows) (hlt : t.value 0 row < t.value 0 next)
    (hbetween : ∀ other ∈ rows, t.value 0 other ≤ t.value 0 row ∨
      t.value 0 next ≤ t.value 0 other) : place next = place row + 1 := by
  rw [h.value_eq row hrow, h.value_eq next hnext] at hlt
  have hlt : place row < place next := by exact_mod_cast hlt
  rcases h.place_mem_iff.1 ⟨row, hrow, rfl⟩ with ⟨hfirst, -⟩
  rcases h.place_mem_iff.1 ⟨next, hnext, rfl⟩ with ⟨-, hlast⟩
  -- The place behind that of the row is the place of some row.
  rcases h.place_mem_iff.2 ⟨(by omega : first ≤ place row + 1), by omega⟩ with
    ⟨other, hother, hplace⟩
  rcases hbetween other hother with hle | hle
  · rw [h.value_eq other hother, h.value_eq row hrow, hplace] at hle
    have hle : place row + 1 ≤ place row := by exact_mod_cast hle
    omega
  · rw [h.value_eq other hother, h.value_eq next hnext, hplace] at hle
    have hle : place next ≤ place row + 1 := by exact_mod_cast hle
    omega

/-- A cut that is found stands behind some row, and there is a row behind it. -/
theorem exists_place_of_isBestCut (h : t.Alternates place rows first count)
    {features : List ℕ} (hfeatures : ∀ feature ∈ features, feature < t.width) {cut : Cut ℚ}
    (hbest : t.IsBestCut rows config features cut) :
    ∃ lower upper : ℕ, lower + 1 + (upper + 1) = count ∧ cut.feature = 0 ∧
      cut.threshold = first + lower + 1 / 2 := by
  have hfeature : cut.feature = 0 := by
    have hlt := hfeatures _ hbest.feature_mem
    rw [h.width_eq] at hlt
    omega
  rcases hbest.midway with ⟨row, hrow, next, hnext, hlt, hbetween, hthreshold⟩
  rw [hfeature] at hlt hbetween hthreshold
  have hsucc := h.place_eq_succ hrow hnext hlt hbetween
  rcases h.place_mem_iff.1 ⟨row, hrow, rfl⟩ with ⟨hfirst, -⟩
  rcases h.place_mem_iff.1 ⟨next, hnext, rfl⟩ with ⟨-, hlast⟩
  refine ⟨place row - first, first + count - place next - 1, by omega, hfeature, ?_⟩
  rw [hthreshold, h.value_eq row hrow, h.value_eq next hnext, hsucc, Nat.cast_sub hfirst]
  push_cast
  ring

/-- The cut that is found is the one behind the first row. -/
theorem threshold_of_bestCut? (h : t.Alternates place rows first (count + 2))
    (hconfig : config.IsUnlimited) {cut : Cut ℚ} {g after : Generator}
    (hcut : t.bestCut? config rows (t.countsOf rows) g = (some cut, after)) :
    cut.feature = 0 ∧ cut.threshold = first + 1 / 2 := by
  have hbest := (bestCut?_isBestCut t config rows g).1 cut (by rw [hcut]; rfl)
  obtain ⟨lower, upper, hupper, hfeature, hmiddle⟩ :=
    h.exists_place_of_isBestCut (fun _ => Generator.lt_of_mem_sample) hbest
  rcases h.gainAt_eq lower upper hupper with ⟨hgain, hbelow, -⟩
  rcases h.gainAt_eq 0 count (by omega) with ⟨hgain_first, hbelow_first, -⟩
  have hleaves := h.leavesEnough hconfig
  -- The cut behind the first row has the same gain, and so it is preferred.
  have hsame : t.gainAt rows 0 (first + (0 : ℕ) + 1 / 2 : ℚ) = cut.gain := by
    have hle := hbest.greatest 0 (h.zero_mem_sample hconfig g) _ hleaves
    have hfound := hbest.gain_eq
    have himpurity := ClassCounts.alternatingImpurity_le lower upper
    rw [(by omega : lower + upper + 1 = count + 1)] at himpurity
    rw [hfeature, hmiddle, hgain] at hfound
    rw [hgain_first] at hle ⊢
    refine le_antisymm hle ?_
    rw [hfound, zero_add]
    linarith
  have hfewest := hbest.fewest
  rw [hfeature, hmiddle] at hfewest
  have hfew := hfewest _ hleaves hsame
  rw [hbelow, hbelow_first] at hfew
  obtain rfl : lower = 0 := by omega
  rw [hmiddle, Nat.cast_zero, add_zero]
  exact ⟨hfeature, rfl⟩

end Alternates

/-! ## Growth -/

/-- Nothing is split where the rows are taken for pure. -/
theorem Grows.eq_leaf (h : t.Grows config depth rows tree)
    (hpure : (t.countsOf rows).gini ≤ Scalar.resolution) : tree = .leaf (t.countsOf rows) := by
  rcases id h with ⟨bound, g, grown, after, hgrow, rfl⟩
  have hcounts := (sorts_of_growFrom? hgrow).counts_eq
  cases htree : grown.tree with
  | leaf counts =>
    rw [htree] at hcounts
    exact congrArg DecisionTree.leaf hcounts
  | split feature threshold counts left right =>
    rw [htree] at h
    exact absurd hpure (isFinal_eq_false_iff.1 h.split_cases.1).2.2.2

/-- Growth goes on where there are several rows. -/
theorem Alternates.isFinal_eq_false (h : t.Alternates place rows first (count + 2))
    (hconfig : config.IsUnlimited) :
    isFinal config depth rows.length (t.countsOf rows) = false := by
  have hlength := h.length_eq
  have hsplit := hconfig.minSamplesSplit_le
  have hleaf := hconfig.minSamplesLeaf_le
  have htwo : config.rowsOfTwoLeaves ≤ 2 * config.minSamplesLeaf := Nat.mod_le _ _
  refine isFinal_eq_false_iff.2 ⟨?_, by omega, by omega, ?_⟩
  · rw [hconfig.maxDepth_eq]
    rintro limit ⟨⟩
  · rw [h.countsOf_eq]
    exact not_le.2 (ClassCounts.resolution_lt_gini_alternating first count)

/-- A tree grown from alternating rows parts off one row after the other. -/
theorem Alternates.eq_comb (hconfig : config.IsUnlimited)
    (h : t.Alternates place rows first (count + 1)) (hgrows : t.Grows config depth rows tree) :
    tree = comb first count := by
  have hleaf : ∀ {first depth : ℕ} {rows : List ℕ} {tree : DecisionTree ℚ},
      t.Alternates place rows first 1 → t.Grows config depth rows tree →
        tree = .leaf (.alternating first 1) := by
    intro first depth rows tree h hgrows
    rw [hgrows.eq_leaf (h.countsOf_eq ▸ ClassCounts.gini_alternating_one_le first), h.countsOf_eq]
  induction count generalizing first rows depth tree with
  | zero => exact hleaf h hgrows
  | succ count ih =>
    have hcounts : tree.counts = .alternating first (count + 2) := by
      rcases hgrows with ⟨bound, g, grown, after, hgrow, rfl⟩
      rw [(sorts_of_growFrom? hgrow).counts_eq, h.countsOf_eq]
    cases tree with
    | leaf counts =>
      rcases hgrows.leaf_cases with hfinal | ⟨g, hnone⟩
      · rw [h.isFinal_eq_false hconfig] at hfinal
        exact absurd hfinal Bool.false_ne_true
      · exact absurd hnone (h.bestCut?_ne_none hconfig g)
    | split feature threshold counts left right =>
      rcases hgrows.split_cases with ⟨-, ⟨cut, g, after, hcut, rfl, rfl⟩, hleft, hright⟩
      rcases h.threshold_of_bestCut? hconfig hcut with ⟨hfeature, hthreshold⟩
      rw [hfeature, hthreshold] at hleft hright ⊢
      have hpasses := h.passes_eq 0
      rw [Nat.cast_zero, add_zero] at hpasses
      rw [(by omega : count + 1 + 1 = 0 + 1 + (count + 1))] at h
      rcases h.sides hpasses with ⟨hlower, hupper⟩
      rw [hleaf hlower hleft, ih hupper hright, comb]
      congr

end TrainingTable

/-- A comb has two nodes for each split and one more. -/
theorem size_comb (first count : ℕ) : (comb first count).size = 2 * count + 1 := by
  induction count generalizing first with
  | zero => rfl
  | succ count ih =>
    rw [comb, DecisionTree.size, ih, DecisionTree.size]
    omega

end LeadScoring
