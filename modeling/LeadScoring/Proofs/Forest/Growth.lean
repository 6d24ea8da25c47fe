import LeadScoring.Proofs.Forest.Candidates
import LeadScoring.Proofs.Forest.Thresholds
import LeadScoring.Proofs.Tree.Unfolding

/-!
# Growth gives well-formed trees

Every cut that a sweep keeps lies between two rows of the node, one of which goes left and the other
one right.  So the tests of a grown tree are on features of the table, none of its parts is empty,
and growth ends before it has made as many splits on a path as there are rows.

Main results:

- Definition `TrainingTable.Separates`: a cut of some rows with one row on either side.
- Theorem `TrainingTable.separates_of_bestCut?`: the best cut separates.
- Theorems `TrainingTable.growFrom?_cases`, `TrainingTable.growFrom?_grown_induction`: what a step of
  growth can do, and what therefore holds of every grown tree and its credits.
- Theorem `TrainingTable.growFrom?_mono`: what is returned within a bound is returned within greater
  ones.
- Theorems `TrainingTable.sound_of_growFrom?`, `TrainingTable.finiteThresholds_of_growFrom?`: tests
  and leaves of grown trees.
- Theorem `TrainingTable.exists_grow?`: a tree is grown from every table of finite features.
- Theorem `TrainingTable.size_of_growFrom?`: grown trees are small.
- Theorems `TrainingTable.growFrom?_spec`, `TrainingTable.grow?_spec`: trees grown from rows
  of nonnegative weight are well formed and small.
-/

namespace LeadScoring

/-! ## Counts -/

namespace ClassCounts

/-- Counts without a negative part. -/
def Nonneg (c : ClassCounts ℚ) : Prop :=
  0 ≤ c.negative ∧ 0 ≤ c.positive

/-- Exact counts are valid if they are not negative. -/
theorem isValid_iff {c : ClassCounts ℚ} : c.isValid = true ↔ c.Nonneg := by
  simp only [isValid, isCount, Bool.and_eq_true, decide_eq_true_eq, Exact.isFinite_eq, true_and]
  rfl

end ClassCounts

namespace TrainingTable

/-! ## Steps of growth -/

/-- Growth stops with a leaf where a node is final or has no cut.  Otherwise the rows on the left of
the best cut are grown first, and those on its right with the generator afterwards. -/
theorem growFrom?_cases {α : Type} [Scalar α] {t : TrainingTable α} {config : TreeConfig}
    {bound depth : ℕ} {rows : List ℕ} {g after : Generator} {grown : Grown α}
    (h : t.growFrom? config bound depth rows g = some (grown, after)) :
    (grown = ⟨.leaf (t.countsOf rows), []⟩ ∧
      (isFinal config depth rows.length (t.countsOf rows) = true ∧ after = g ∨
        isFinal config depth rows.length (t.countsOf rows) = false ∧
          t.bestCut? config rows (t.countsOf rows) g = (none, after))) ∨
    ∃ less cut between left afterLeft right, bound = less + 1 ∧
      isFinal config depth rows.length (t.countsOf rows) = false ∧
      t.bestCut? config rows (t.countsOf rows) g = (some cut, between) ∧
      t.growFrom? config less (depth + 1) (rows.filter (t.goesLeft cut)) between =
        some (left, afterLeft) ∧
      t.growFrom? config less (depth + 1) (rows.filter fun row => !t.goesLeft cut row) afterLeft =
        some (right, after) ∧
      grown = ⟨.split cut.feature cut.threshold (t.countsOf rows) left.tree right.tree,
        (cut.feature, cut.gain) :: (left.credits ++ right.credits)⟩ := by
  unfold growFrom? at h
  dsimp only at h
  split_ifs at h with hfinal
  · cases h
    exact Or.inl ⟨rfl, Or.inl ⟨hfinal, rfl⟩⟩
  · split at h
    · rename_i between hcut
      cases h
      exact Or.inl ⟨rfl, Or.inr ⟨by simpa using hfinal, hcut⟩⟩
    · rename_i cut between hcut
      right
      cases bound with
      | zero => cases h
      | succ less =>
        dsimp only at h
        split at h
        · cases h
        · rename_i left afterLeft hleft
          split at h
          · cases h
          · rename_i right afterRight hright
            cases h
            exact ⟨less, cut, between, left, afterLeft, right, rfl, by simpa using hfinal, hcut,
              hleft, hright, rfl⟩

section Steps

variable {α : Type} [Scalar α] {t : TrainingTable α} {config : TreeConfig}
  {bound depth : ℕ} {rows : List ℕ} {g : Generator}

/-- A final node becomes a leaf within any bound. -/
theorem growFrom?_of_isFinal
    (hfinal : isFinal config depth rows.length (t.countsOf rows) = true) :
    t.growFrom? config bound depth rows g = some (⟨.leaf (t.countsOf rows), []⟩, g) := by
  unfold growFrom?
  dsimp only
  rw [if_pos hfinal]

/-- A node without a cut becomes a leaf within any bound. -/
theorem growFrom?_of_none {after : Generator}
    (hfinal : isFinal config depth rows.length (t.countsOf rows) = false)
    (hcut : t.bestCut? config rows (t.countsOf rows) g = (none, after)) :
    t.growFrom? config bound depth rows g = some (⟨.leaf (t.countsOf rows), []⟩, after) := by
  unfold growFrom?
  dsimp only
  rw [hfinal, hcut]
  rfl

/-- A node that is final or without a cut comes to an end within any bound. -/
theorem exists_growFrom?_leaf
    (h : isFinal config depth rows.length (t.countsOf rows) = true ∨
      (t.bestCut? config rows (t.countsOf rows) g).1 = none) :
    ∃ grown after, t.growFrom? config bound depth rows g = some (grown, after) := by
  cases hfinal : isFinal config depth rows.length (t.countsOf rows) with
  | true => exact ⟨_, _, growFrom?_of_isFinal hfinal⟩
  | false =>
    have hnone := h.resolve_left (by rw [hfinal]; exact Bool.false_ne_true)
    exact ⟨_, _, growFrom?_of_none hfinal (Prod.ext hnone rfl)⟩

/-- A node with a cut becomes a split of what its two sides become. -/
theorem growFrom?_split {cut : Cut α} {between afterLeft after : Generator} {left right : Grown α}
    (hfinal : isFinal config depth rows.length (t.countsOf rows) = false)
    (hcut : t.bestCut? config rows (t.countsOf rows) g = (some cut, between))
    (hleft : t.growFrom? config bound (depth + 1) (rows.filter (t.goesLeft cut)) between =
      some (left, afterLeft))
    (hright : t.growFrom? config bound (depth + 1) (rows.filter fun row => !t.goesLeft cut row)
      afterLeft = some (right, after)) :
    t.growFrom? config (bound + 1) depth rows g = some
      (⟨.split cut.feature cut.threshold (t.countsOf rows) left.tree right.tree,
        (cut.feature, cut.gain) :: (left.credits ++ right.credits)⟩, after) := by
  rw [growFrom?]
  dsimp only
  rw [hfinal, hcut]
  dsimp only
  rw [hleft]
  dsimp only
  rw [hright]
  rfl

/-- What is returned within a bound is returned within every greater one. -/
theorem growFrom?_mono {more : ℕ} {after : Generator} {grown : Grown α}
    (h : t.growFrom? config bound depth rows g = some (grown, after)) (hle : bound ≤ more) :
    t.growFrom? config more depth rows g = some (grown, after) := by
  induction more generalizing bound depth rows g after grown with
  | zero =>
    obtain rfl := Nat.le_zero.1 hle
    exact h
  | succ more ih =>
    rcases growFrom?_cases h with ⟨rfl, ⟨hfinal, rfl⟩ | ⟨hfinal, hcut⟩⟩ |
      ⟨less, cut, between, left, afterLeft, right, rfl, hfinal, hcut, hleft, hright, rfl⟩
    · exact growFrom?_of_isFinal hfinal
    · exact growFrom?_of_none hfinal hcut
    · have hless := Nat.le_of_succ_le_succ hle
      exact growFrom?_split hfinal hcut (ih hleft hless) (ih hright hless)

end Steps

/-! ## Induction over growth -/

/-- What holds of leaves and passes from the two sides of a cut to the split holds of everything
grown, the credits of its splits included. -/
theorem growFrom?_grown_induction {α : Type} [Scalar α] {t : TrainingTable α} {config : TreeConfig}
    {P : List ℕ → Grown α → Prop} (hleaf : ∀ rows, P rows ⟨.leaf (t.countsOf rows), []⟩)
    (hsplit : ∀ rows cut g after left right,
      t.bestCut? config rows (t.countsOf rows) g = (some cut, after) →
      P (rows.filter (t.goesLeft cut)) left → P (rows.filter fun row => !t.goesLeft cut row) right →
        P rows ⟨.split cut.feature cut.threshold (t.countsOf rows) left.tree right.tree,
          (cut.feature, cut.gain) :: (left.credits ++ right.credits)⟩)
    {bound depth : ℕ} {rows : List ℕ} {g after : Generator} {grown : Grown α}
    (h : t.growFrom? config bound depth rows g = some (grown, after)) : P rows grown := by
  induction bound using Nat.strong_induction_on generalizing depth rows g after grown with
  | _ bound ih =>
    rcases growFrom?_cases h with ⟨rfl, -⟩ |
      ⟨less, cut, between, left, afterLeft, right, rfl, -, hcut, hleft, hright, rfl⟩
    · exact hleaf rows
    · exact hsplit rows cut g between left right hcut
        (ih less (Nat.lt_succ_self less) hleft) (ih less (Nat.lt_succ_self less) hright)

/-- What holds of leaves and passes from the two sides of a cut to the split holds of every grown
tree. -/
theorem growFrom?_induction {α : Type} [Scalar α] {t : TrainingTable α} {config : TreeConfig}
    {P : List ℕ → DecisionTree α → Prop} (hleaf : ∀ rows, P rows (.leaf (t.countsOf rows)))
    (hsplit : ∀ rows cut g after left right,
      t.bestCut? config rows (t.countsOf rows) g = (some cut, after) →
      P (rows.filter (t.goesLeft cut)) left → P (rows.filter fun row => !t.goesLeft cut row) right →
        P rows (.split cut.feature cut.threshold (t.countsOf rows) left right))
    {bound depth : ℕ} {rows : List ℕ} {g after : Generator} {grown : Grown α}
    (h : t.growFrom? config bound depth rows g = some (grown, after)) : P rows grown.tree :=
  growFrom?_grown_induction (P := fun rows grown => P rows grown.tree) hleaf
    (fun rows cut g after left right => hsplit rows cut g after left.tree right.tree) h

section Sound

variable {α : Type} [Scalar α] {t : TrainingTable α} {config : TreeConfig} {bound depth : ℕ}
  {rows : List ℕ} {g after : Generator} {grown : Grown α}

/-- What holds of zero and is kept by adding a weight holds of all counts. -/
theorem forall_countsOf {P : α → Prop} (hzero : P 0)
    (hadd : ∀ x row, P x → P (x + t.weight row)) (rows : List ℕ) :
    P (t.countsOf rows).negative ∧ P (t.countsOf rows).positive := by
  have hrun : ∀ c : ClassCounts α, P c.negative ∧ P c.positive →
      P (rows.foldl t.addRow c).negative ∧ P (rows.foldl t.addRow c).positive := by
    induction rows with
    | nil => exact fun _ hc => hc
    | cons row rows ih =>
      intro c hc
      apply ih
      unfold addRow ClassCounts.add
      cases t.label row with
      | negative => exact ⟨hadd _ row hc.1, hc.2⟩
      | positive => exact ⟨hc.1, hadd _ row hc.2⟩
  exact hrun .zero ⟨hzero, hzero⟩

/-- Grown trees test features of the table, and their leaves have counts of rows. -/
theorem sound_of_growFrom? (hcounts : ∀ rows, (t.countsOf rows).isValid = true)
    (h : t.growFrom? config bound depth rows g = some (grown, after)) :
    grown.tree.Sound t.width := by
  refine growFrom?_induction (P := fun _ tree => tree.Sound t.width) hcounts ?_ h
  intro rows cut g after left right hcut hleft hright
  exact ⟨(exists_neighbours_of_bestCut? hcut).1, hleft, hright⟩

/-- Grown trees have finite thresholds if those between any two values are finite. -/
theorem finiteThresholds_of_growFrom?
    (hfinite : ∀ feature row next, ¬ t.value feature next ≤ t.value feature row →
      Scalar.isFinite (Cut.thresholdBetween (t.value feature row) (t.value feature next)) = true)
    (h : t.growFrom? config bound depth rows g = some (grown, after)) :
    grown.tree.FiniteThresholds := by
  refine growFrom?_induction (P := fun _ tree => tree.FiniteThresholds) (fun _ => trivial) ?_ h
  intro rows cut g after left right hcut hleft hright
  rcases exists_neighbours_of_bestCut? hcut with ⟨-, row, -, next, -, hle, hthreshold⟩
  refine ⟨?_, hleft, hright⟩
  rw [hthreshold]
  exact hfinite cut.feature row next hle

end Sound

/-! ## Finite features -/

section Growth

variable {α : Type} [Scalar α] {t : TrainingTable α} {config : TreeConfig}

/-- Every entry of the rows is a number on the real line. -/
def HasFiniteFeatures (t : TrainingTable α) : Prop :=
  ∀ row ∈ t.features.toList, ∀ x ∈ row.toList, Scalar.isFinite x = true

instance (t : TrainingTable α) : Decidable t.HasFiniteFeatures :=
  inferInstanceAs (Decidable (∀ row ∈ t.features.toList, ∀ x ∈ row.toList, _))

/-- Entries outside the rows count as zero. -/
theorem value_cases (t : TrainingTable α) (feature row : ℕ) :
    t.value feature row = 0 ∨
      ∃ entries ∈ t.features.toList, t.value feature row ∈ entries.toList := by
  unfold value
  rw [Array.getD_eq_getD_getElem?, Array.getD_eq_getD_getElem?]
  cases hrow : t.features[row]? with
  | none => simp
  | some entries =>
    cases hentry : entries[feature]? with
    | none => simp [hentry]
    | some x =>
      right
      refine ⟨entries, Array.mem_toList_iff.2 (Array.mem_of_getElem? hrow), ?_⟩
      simpa [hentry] using Array.mem_of_getElem? hentry

/-- Of any two values of a feature that can be told apart, the lower one lies on the left of the
threshold between them. -/
def CutsApart (t : TrainingTable α) : Prop :=
  ∀ feature row next, ¬ t.value feature next ≤ t.value feature row →
    t.value feature row ≤ Cut.thresholdBetween (t.value feature row) (t.value feature next)

section SplitsBetween

variable [SplitsBetween α]

/-- Every feature of every row is finite if all entries are. -/
theorem HasFiniteFeatures.isFinite_value (h : t.HasFiniteFeatures) (feature row : ℕ) :
    Scalar.isFinite (t.value feature row) = true := by
  rcases t.value_cases feature row with hzero | ⟨entries, hentries, hvalue⟩
  · rw [hzero]
    exact SplitsBetween.isFinite_zero
  · exact h entries hentries _ hvalue

/-- Thresholds part the values of a table of finite features. -/
theorem HasFiniteFeatures.cutsApart (h : t.HasFiniteFeatures) : t.CutsApart :=
  fun feature row next => SplitsBetween.le_thresholdBetween (h.isFinite_value feature row)
    (h.isFinite_value feature next)

end SplitsBetween

/-! ## Cuts -/

/-- A cut on a feature of the table that leaves some row on either side. -/
structure Separates (t : TrainingTable α) (rows : List ℕ) (cut : Cut α) : Prop where
  feature_lt : cut.feature < t.width
  left : ∃ row ∈ rows, t.goesLeft cut row = true
  right : ∃ row ∈ rows, t.goesLeft cut row = false

/-- The best cut of some rows separates them. -/
theorem separates_of_bestCut? (hapart : t.CutsApart) {counts : ClassCounts α}
    {rows : List ℕ} {g after : Generator} {cut : Cut α}
    (h : t.bestCut? config rows counts g = (some cut, after)) : t.Separates rows cut := by
  rcases exists_neighbours_of_bestCut? h with ⟨hfeature, row, hrow, next, hnext, hle, hthreshold⟩
  refine ⟨hfeature, ⟨row, hrow, decide_eq_true ?_⟩, ⟨next, hnext, decide_eq_false ?_⟩⟩
  · rw [hthreshold]
    exact hapart cut.feature row next hle
  · rw [hthreshold]
    exact Cut.not_le_thresholdBetween hle

/-! ## Growth -/

/-- Both sides of a separating cut have rows, and together they have all rows. -/
theorem length_filter_of_separates {rows : List ℕ} {cut : Cut α} (h : t.Separates rows cut) :
    0 < (rows.filter (t.goesLeft cut)).length ∧
      0 < (rows.filter fun row => !t.goesLeft cut row).length ∧
      rows.length = (rows.filter (t.goesLeft cut)).length +
        (rows.filter fun row => !t.goesLeft cut row).length := by
  obtain ⟨l, hl, hleft⟩ := h.left
  obtain ⟨r, hr, hright⟩ := h.right
  refine ⟨List.length_pos_of_mem (List.mem_filter.2 ⟨hl, hleft⟩),
    List.length_pos_of_mem (List.mem_filter.2 ⟨hr, by simp [hright]⟩), ?_⟩
  simpa using List.length_eq_length_filter_add (t.goesLeft cut)

/-- No more rows take part than there are labels. -/
theorem length_weightedRows_le (t : TrainingTable α) : t.weightedRows.length ≤ t.labels.size := by
  have hle := List.length_filter_le (fun row => decide (0 < t.weight row))
    (List.range t.labels.size)
  rwa [List.length_range] at hle

/-- A bound on the splits of a path that growth does not exceed: it reaches the greatest depth, or
there are as many splits as rows, one of which stays back in the end. -/
structure Suffices (config : TreeConfig) (bound depth size : ℕ) : Prop where
  deep : ∀ limit, config.maxDepth = some limit → limit ≤ bound + depth
  wide : config.maxDepth = none → size ≤ bound + 1

/-- One split later a smaller bound suffices, since a part has fewer rows if no depth is the
greatest. -/
theorem Suffices.below {less depth size part : ℕ} (h : Suffices config (less + 1) depth size)
    (hpart : config.maxDepth = none → part < size) : Suffices config less (depth + 1) part where
  deep limit hlimit := by
    have hdeep := h.deep limit hlimit
    omega
  wide hnone := by
    have hwide := h.wide hnone
    have hless := hpart hnone
    omega

/-- Growth returns a tree if its bound suffices.  Only without a greatest depth do cuts have to
separate rows. -/
theorem exists_growFrom? (hapart : config.maxDepth = none → t.CutsApart) {bound depth : ℕ}
    {rows : List ℕ} (hbound : Suffices config bound depth rows.length) (g : Generator) :
    ∃ grown after, t.growFrom? config bound depth rows g = some (grown, after) := by
  induction bound generalizing depth rows g with
  | zero =>
    apply exists_growFrom?_leaf
    by_contra hsplit
    rw [not_or, Bool.not_eq_true] at hsplit
    obtain ⟨hfinal, hcut⟩ := hsplit
    obtain ⟨cut, hcut⟩ := Option.ne_none_iff_exists'.1 hcut
    cases hlimit : config.maxDepth with
    | none =>
      obtain ⟨hl, hr, hlength⟩ :=
        length_filter_of_separates (separates_of_bestCut? (hapart hlimit) (Prod.ext hcut rfl))
      have hwide := hbound.wide hlimit
      omega
    | some limit =>
      have hdeep := hbound.deep limit hlimit
      simp [isFinal, hlimit] at hfinal
      omega
  | succ less ih =>
    cases hfinal : isFinal config depth rows.length (t.countsOf rows) with
    | true => exact exists_growFrom?_leaf (Or.inl hfinal)
    | false =>
      cases hcut : t.bestCut? config rows (t.countsOf rows) g with
      | mk best between =>
        cases best with
        | none => exact exists_growFrom?_leaf (Or.inr (by rw [hcut]))
        | some cut =>
          have hlengths := fun hnone =>
            length_filter_of_separates (separates_of_bestCut? (hapart hnone) hcut)
          have hleftBound : Suffices config less (depth + 1)
              (rows.filter (t.goesLeft cut)).length :=
            hbound.below fun hnone => by have hall := hlengths hnone; omega
          have hrightBound : Suffices config less (depth + 1)
              (rows.filter fun row => !t.goesLeft cut row).length :=
            hbound.below fun hnone => by have hall := hlengths hnone; omega
          obtain ⟨left, afterLeft, hleft⟩ := ih hleftBound between
          obtain ⟨right, after, hright⟩ := ih hrightBound afterLeft
          exact ⟨_, after, growFrom?_split hfinal hcut hleft hright⟩

/-- A tree is grown from every table whose values are cut apart, and from any table if there is a
greatest depth. -/
theorem exists_grow?_of_cutsApart (hapart : config.maxDepth = none → t.CutsApart) (g : Generator) :
    ∃ grown after, t.grow? config g = some (grown, after) := by
  apply exists_growFrom? hapart
  constructor
  · intro limit hlimit
    simp [depthBound, hlimit]
  · intro hnone
    have hlength := t.length_weightedRows_le
    simp only [depthBound, hnone]
    omega

/-- A tree is grown from every table of finite features. -/
theorem exists_grow? [SplitsBetween α] (hfinite : t.HasFiniteFeatures) (config : TreeConfig)
    (g : Generator) : ∃ grown after, t.grow? config g = some (grown, after) :=
  exists_grow?_of_cutsApart (fun _ => hfinite.cutsApart) g

end Growth

/-! ## Sizes -/

/-- A tree whose cuts separate has at most two nodes for each row, less one. -/
theorem size_of_growFrom? {α : Type} [Scalar α] {t : TrainingTable α} {config : TreeConfig}
    (hapart : t.CutsApart) {bound depth : ℕ} {rows : List ℕ} {g after : Generator} {grown : Grown α}
    (h : t.growFrom? config bound depth rows g = some (grown, after)) :
    grown.tree.size + 1 ≤ 2 * max 1 rows.length := by
  refine growFrom?_induction (P := fun rows tree => tree.size + 1 ≤ 2 * max 1 rows.length) ?_ ?_ h
  · intro rows
    simp only [DecisionTree.size]
    omega
  · intro rows cut g after left right hcut hleft hright
    obtain ⟨hl, hr, hlength⟩ := length_filter_of_separates (separates_of_bestCut? hapart hcut)
    simp only [DecisionTree.size]
    omega

variable {t : TrainingTable ℚ} {config : TreeConfig}

/-- Weights are not negative, so no counts of rows are. -/
theorem countsOf_nonneg (hweights : ∀ row, 0 ≤ t.weight row) (rows : List ℕ) :
    (t.countsOf rows).Nonneg :=
  forall_countsOf (le_refl 0) (fun _ row hx => add_nonneg hx (hweights row)) rows

/-- Trees grown from rows of nonnegative weight are well formed, and have at most two nodes for each
row, less one. -/
theorem growFrom?_spec (hweights : ∀ row, 0 ≤ t.weight row) {bound depth : ℕ} {rows : List ℕ}
    {g after : Generator} {grown : Grown ℚ}
    (h : t.growFrom? config bound depth rows g = some (grown, after)) :
    grown.tree.WellFormed t.width ∧ grown.tree.size + 1 ≤ 2 * max 1 rows.length := by
  have hsound := sound_of_growFrom?
    (fun rows => ClassCounts.isValid_iff.2 (countsOf_nonneg hweights rows)) h
  have hfinite := finiteThresholds_of_growFrom? (fun _ _ _ _ => rfl) h
  exact ⟨DecisionTree.wellFormed_iff.2 ⟨hsound, hfinite⟩,
    size_of_growFrom? (HasFiniteFeatures.cutsApart fun _ _ _ _ => rfl) h⟩

/-- The tree grown from a whole table is well formed and has at most two nodes for each row. -/
theorem grow?_spec (hweights : ∀ row, 0 ≤ t.weight row) {g after : Generator} {grown : Grown ℚ}
    (h : t.grow? config g = some (grown, after)) :
    grown.tree.WellFormed t.width ∧ grown.tree.size + 1 ≤ 2 * max 1 t.labels.size := by
  obtain ⟨hformed, hsize⟩ := growFrom?_spec hweights h
  have hlength := t.length_weightedRows_le
  exact ⟨hformed, by omega⟩

end TrainingTable

end LeadScoring
