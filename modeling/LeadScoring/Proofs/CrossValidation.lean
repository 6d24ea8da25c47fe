import LeadScoring.Proofs.Forest.Metrics
import LeadScoring.Proofs.Pipeline
import LeadScoring.Proofs.Vocabulary.Encoding

/-!
# Cross-validation

The rows are parted into folds by the remainder of their position.  For each fold a forest is fitted
on the rows of all others, and it is scored on the rows of the fold, which it has not seen.  With at
least two folds and at least as many rows as folds, every fold has rows to fit on and rows to score.
The rows of a dataset are encoded with one width and finite values, so no check of the training run
fails and all of its trees come to an end.

Main results:

- Theorem `partsEvenly_foldPositions`: folds part the rows, and their sizes differ by one at most.
- Theorems `foldRows_eq`, `otherRows_eq`: the rows of a fold and those of all others by positions.
- Theorem `exists_holdsOut`: the forest of a fold is fitted on the rows of all others.
- Theorem `HoldsOut.countsHits`: scores weighted by fold sizes count the rows that are classified
  correctly while they are held out.
- Theorem `crossValidate_holdsOut`: all of it for the rows of a dataset.
-/

namespace LeadScoring

variable {β : Type}

/-! ## Folds -/

/-- The positions below `n` that stand in a fold. -/
def foldPositions (k n fold : ℕ) : List ℕ :=
  (List.range n).filter fun i => i % k == fold

theorem mem_foldPositions {k n fold i : ℕ} :
    i ∈ foldPositions k n fold ↔ i < n ∧ i % k = fold := by
  simp [foldPositions]

/-- Folds part the positions below `n`: each one stands in exactly one fold, no fold is empty, and
the sizes of two folds differ by at most one. -/
structure PartsEvenly (k n : ℕ) (folds : ℕ → List ℕ) : Prop where
  ascending : ∀ fold < k, (folds fold).Pairwise (· < ·)
  lt_of_mem : ∀ fold < k, ∀ i ∈ folds fold, i < n
  existsUnique : ∀ i < n, ∃! fold, fold < k ∧ i ∈ folds fold
  ne_nil : ∀ fold < k, folds fold ≠ []
  length_le : ∀ fold < k, ∀ other < k, (folds fold).length ≤ (folds other).length + 1

/-- A fold has the quotient of rows and folds as its size, or one more. -/
theorem length_foldPositions {k : ℕ} (hk : 0 < k) (n fold : ℕ) (hfold : fold < k) :
    (foldPositions k n fold).length = n / k + if fold < n % k then 1 else 0 := by
  have hcount : (foldPositions k n fold).length = n.count (· ≡ fold [MOD k]) := by
    rw [foldPositions, ← List.countP_eq_length_filter]
    induction n with
    | zero => rfl
    | succ n ih =>
      rw [List.range_succ, List.countP_append, ih, Nat.count_succ, List.countP_singleton]
      simp only [Nat.ModEq, Nat.mod_eq_of_lt hfold, beq_iff_eq]
  rw [hcount, Nat.count_modEq_card n hk, Nat.mod_eq_of_lt hfold]

/-- The remainders part the positions into even folds. -/
theorem partsEvenly_foldPositions {k n : ℕ} (hk : 0 < k) (hn : k ≤ n) :
    PartsEvenly k n (foldPositions k n) where
  ascending _ _ := List.pairwise_lt_range.filter _
  lt_of_mem _ _ _ hi := (mem_foldPositions.1 hi).1
  existsUnique i hi := by
    refine ⟨i % k, ⟨Nat.mod_lt i hk, mem_foldPositions.2 ⟨hi, rfl⟩⟩, ?_⟩
    rintro fold ⟨-, hmem⟩
    exact (mem_foldPositions.1 hmem).2.symm
  ne_nil fold hfold := by
    have hmem : fold ∈ foldPositions k n fold :=
      mem_foldPositions.2 ⟨by omega, Nat.mod_eq_of_lt hfold⟩
    exact List.ne_nil_of_mem hmem
  length_le fold hfold other hother := by
    rw [length_foldPositions hk n fold hfold, length_foldPositions hk n other hother]
    split_ifs <;> omega

/-! ## Rows at positions -/

/-- The entries of a list at given positions. -/
def entriesAt (xs : List β) (positions : List ℕ) : List β :=
  positions.filterMap (xs[·]?)

theorem entriesAt_append (xs : List β) (before after : List ℕ) :
    entriesAt xs (before ++ after) = entriesAt xs before ++ entriesAt xs after :=
  List.filterMap_append

theorem mem_of_mem_entriesAt {xs : List β} {positions : List ℕ} {x : β}
    (h : x ∈ entriesAt xs positions) : x ∈ xs := by
  obtain ⟨i, -, hi⟩ := List.mem_filterMap.1 h
  exact List.mem_of_getElem? hi

theorem length_entriesAt {xs : List β} {positions : List ℕ} (h : ∀ i ∈ positions, i < xs.length) :
    (entriesAt xs positions).length = positions.length := by
  induction positions with
  | nil => rfl
  | cons i positions ih =>
    rw [List.forall_mem_cons] at h
    rw [entriesAt, List.filterMap_cons, List.getElem?_eq_getElem h.1, List.length_cons, ← entriesAt,
      ih h.2, List.length_cons]

/-- Entries that are chosen by their positions stand at the chosen positions. -/
theorem map_fst_filter_zipIdx (p : ℕ → Bool) (xs : List β) :
    (xs.zipIdx.filter fun x => p x.2).map (·.1) = entriesAt xs ((List.range xs.length).filter p) := by
  -- From the end, since an appended entry moves no other one to a new position.
  induction xs using List.reverseRecOn with
  | nil => rfl
  | append_singleton xs x ih =>
    have hbefore : entriesAt (xs ++ [x]) ((List.range xs.length).filter p) =
        entriesAt xs ((List.range xs.length).filter p) := by
      refine List.filterMap_congr fun i hi => ?_
      exact List.getElem?_append_left (List.mem_range.1 (List.mem_filter.1 hi).1)
    have hlast : entriesAt (xs ++ [x]) ([xs.length].filter p) =
        (([x].zipIdx (0 + xs.length)).filter fun x => p x.2).map (·.1) := by
      by_cases hp : p xs.length = true <;> simp [entriesAt, hp]
    rw [List.zipIdx_append, List.filter_append, List.map_append, ih, List.length_append,
      List.length_singleton, List.range_succ, List.filter_append, entriesAt_append, hbefore, hlast]

theorem foldRows_eq (k fold : ℕ) (xs : List β) :
    foldRows k fold xs = entriesAt xs (foldPositions k xs.length fold) :=
  map_fst_filter_zipIdx (fun i => i % k == fold) xs

/-- The positions below `n` that stand in other folds. -/
def otherPositions (k n fold : ℕ) : List ℕ :=
  (List.range n).filter fun i => i % k != fold

theorem otherRows_eq (k fold : ℕ) (xs : List β) :
    otherRows k fold xs = entriesAt xs (otherPositions k xs.length fold) :=
  map_fst_filter_zipIdx (fun i => i % k != fold) xs

/-- A position outside of a fold belongs to one of the other folds. -/
theorem mem_otherPositions {k n fold i : ℕ} (hk : 0 < k) :
    i ∈ otherPositions k n fold ↔ ∃ other < k, other ≠ fold ∧ i ∈ foldPositions k n other := by
  simp only [otherPositions, List.mem_filter, List.mem_range, bne_iff_ne, mem_foldPositions]
  constructor
  · rintro ⟨hi, hne⟩
    exact ⟨i % k, Nat.mod_lt i hk, hne, hi, rfl⟩
  · rintro ⟨_, -, hne, hi, rfl⟩
    exact ⟨hi, hne⟩

/-- With two folds there is another one, and it is not empty. -/
theorem otherRows_ne_nil {k : ℕ} {xs : List β} (hlow : 2 ≤ k) (hhigh : k ≤ xs.length) (fold : ℕ) :
    otherRows k fold xs ≠ [] := by
  have hall : ∀ i ∈ otherPositions k xs.length fold, i < xs.length := fun i hi =>
    List.mem_range.1 (List.mem_filter.1 hi).1
  -- The first and the second row stand in different folds.
  obtain ⟨other, hother, hne⟩ : ∃ other < 2, other ≠ fold := by
    rcases eq_or_ne fold 0 with rfl | hfold
    · exact ⟨1, by omega, by omega⟩
    · exact ⟨0, by omega, hfold.symm⟩
  have hmem : other ∈ otherPositions k xs.length fold := by
    rw [mem_otherPositions (by omega)]
    exact ⟨other, by omega, hne, mem_foldPositions.2 ⟨by omega, Nat.mod_eq_of_lt (by omega)⟩⟩
  rw [← List.length_pos_iff, otherRows_eq, length_entriesAt hall]
  exact List.length_pos_of_mem hmem

/-! ## Forests without the rows they are scored on -/

section Held

variable {α : Type} [Scalar α] {config : ForestConfig} {k : ℕ} {rows : List (Array α × Label)}
  {cv : CrossValidation α} {forests : ℕ → Forest α}

/-- The forest of each fold is fitted on the rows of all other folds, in their order, and on no row
of its own fold, and its score is its accuracy on the rows of the fold. -/
structure HoldsOut (config : ForestConfig) (k : ℕ) (rows : List (Array α × Label))
    (cv : CrossValidation α) (forests : ℕ → Forest α) : Prop where
  length_scores : cv.scores.length = k
  summary : cv = .ofScores cv.scores
  fitted : ∀ fold < k, ∃ others : List ℕ, others.Pairwise (· < ·) ∧
    (∀ i, i ∈ others ↔ ∃ other < k, other ≠ fold ∧ i ∈ foldPositions k rows.length other) ∧
    (∀ i ∈ foldPositions k rows.length fold, i ∉ others) ∧
    ∃ importances, trainOn config (entriesAt rows others) = .ok ⟨forests fold, importances⟩
  scored : ∀ fold < k, cv.scores[fold]? = some
    ((forests fold).accuracy ((entriesAt rows (foldPositions k rows.length fold)).map (·.1))
      ((entriesAt rows (foldPositions k rows.length fold)).map (·.2)))

/-- The folds are scored if a forest can be fitted on the others of each. -/
theorem foldScores_eq_ok {trained : ℕ → TrainedForest α} {folds : List ℕ}
    (h : ∀ fold ∈ folds, trainOn config (otherRows k fold rows) = .ok (trained fold)) :
    foldScores config k rows folds = .ok (folds.map fun fold =>
      (trained fold).forest.accuracy ((foldRows k fold rows).map (·.1))
        ((foldRows k fold rows).map (·.2))) := by
  induction folds with
  | nil => rfl
  | cons fold folds ih =>
    rw [List.forall_mem_cons] at h
    rw [foldScores, Outcome.bind_eq_ok_iff]
    refine ⟨_, Outcome.bind_eq_ok_iff.2 ⟨_, h.1, rfl⟩, ?_⟩
    exact Outcome.bind_eq_ok_iff.2 ⟨_, ih h.2, rfl⟩

/-- Cross-validation succeeds if a forest can be fitted on the others of each fold. -/
theorem holdsOut_of_trainOn {trained : ℕ → TrainedForest α}
    (h : ∀ fold, trainOn config (otherRows k fold rows) = .ok (trained fold)) (hlow : 2 ≤ k)
    (hhigh : k ≤ rows.length) :
    ∃ cv, crossValidate config k rows = .ok (some cv) ∧
      HoldsOut config k rows cv fun fold => (trained fold).forest := by
  have hpos : 0 < k := by omega
  refine ⟨_, by rw [crossValidate, if_neg (by omega), foldScores_eq_ok fun fold _ => h fold]; rfl,
    ?_, rfl, ?_, ?_⟩
  · simp [CrossValidation.ofScores]
  · intro fold hfold
    refine ⟨otherPositions k rows.length fold, List.pairwise_lt_range.filter _,
      fun i => mem_otherPositions hpos, ?_, (trained fold).importances, ?_⟩
    · intro i hi hother
      obtain ⟨other, -, hne, hmem⟩ := (mem_otherPositions hpos).1 hother
      exact hne ((mem_foldPositions.1 hmem).2.symm.trans (mem_foldPositions.1 hi).2)
    · rw [← otherRows_eq, h fold]
  · intro fold hfold
    rw [← foldRows_eq]
    simp [CrossValidation.ofScores, hfold]

/-- Cross-validation of at least two folds on as many rows or more succeeds, if the parameters are
valid and the rows are equally wide and have finite values. -/
theorem exists_holdsOut [SplitsBetween α] (hconfig : config.IsValid) {width : ℕ}
    (hwidth : 0 < width) (hrows : ∀ row ∈ rows, row.1.size = width ∧
      ∀ x ∈ row.1.toList, Scalar.isFinite x = true) (hlow : 2 ≤ k) (hhigh : k ≤ rows.length) :
    ∃ cv forests, crossValidate config k rows = .ok (some cv) ∧
      HoldsOut config k rows cv forests := by
  have htrain : ∀ fold, ∃ trained : TrainedForest α,
      trainOn config (otherRows k fold rows) = .ok trained := by
    intro fold
    have hothers : ∀ features ∈ (otherRows k fold rows).map (·.1),
        features.size = width ∧ ∀ x ∈ features.toList, Scalar.isFinite x = true := by
      rw [otherRows_eq, List.forall_mem_map]
      exact fun row hrow => hrows row (mem_of_mem_entriesAt hrow)
    have hnonempty : (otherRows k fold rows).map (·.1) ≠ [] :=
      List.map_eq_nil_iff.not.2 (otherRows_ne_nil hlow hhigh fold)
    have hlength : ((otherRows k fold rows).map (·.1)).length =
        ((otherRows k fold rows).map (·.2)).length := by
      rw [List.length_map, List.length_map]
    obtain ⟨trained, htrained⟩ := Forest.exists_train hconfig hnonempty hlength
      (fun row hrow => (hothers row hrow).1) hwidth fun row hrow => (hothers row hrow).2
    rw [List.map_map] at htrained
    exact ⟨trained, htrained⟩
  choose trained htrained using htrain
  obtain ⟨cv, hcv, hholds⟩ := holdsOut_of_trainOn htrained hlow hhigh
  exact ⟨cv, _, hcv, hholds⟩

end Held

/-! ## Counting with exact numbers -/

section Exact

variable {config : ForestConfig} {k : ℕ} {rows : List (Array ℚ × Label)}
  {cv : CrossValidation ℚ} {forests : ℕ → Forest ℚ}

/-- Whether the row at a position is classified correctly by the forest of its fold. -/
def IsHit (k : ℕ) (rows : List (Array ℚ × Label)) (forests : ℕ → Forest ℚ) (i : ℕ) : Prop :=
  ∃ fold < k, i ∈ foldPositions k rows.length fold ∧
    ∃ row, rows[i]? = some row ∧ (forests fold).predictLabel row.1 = row.2

/-- Scores and their mean are shares, and scores weighted by the sizes of their folds count the rows
that are classified correctly while they are held out. -/
structure CountsHits (k : ℕ) (rows : List (Array ℚ × Label)) (cv : CrossValidation ℚ)
    (forests : ℕ → Forest ℚ) : Prop where
  score_mem_unit : ∀ score ∈ cv.scores, 0 ≤ score ∧ score ≤ 1
  mean_mem_unit : 0 ≤ cv.mean ∧ cv.mean ≤ 1
  sum_scores : ∑ fold ∈ Finset.range k,
      cv.scores.getD fold 0 * (foldPositions k rows.length fold).length =
    ({i | IsHit k rows forests i}.ncard : ℚ)

/-- What is counted in each fold is counted once in all. -/
theorem sum_countP_foldPositions (hk : 0 < k) (p : ℕ → Bool) (n : ℕ) :
    ∑ fold ∈ Finset.range k, (foldPositions k n fold).countP p = (List.range n).countP p := by
  induction n with
  | zero => simp [foldPositions]
  | succ n ih =>
    have hfold : ∀ fold, (foldPositions k (n + 1) fold).countP p =
        (foldPositions k n fold).countP p + if n % k = fold then [n].countP p else 0 := by
      intro fold
      rw [foldPositions, List.range_succ, List.filter_append, List.countP_append, ← foldPositions]
      by_cases hn : n % k = fold <;> simp [hn]
    rw [Finset.sum_congr rfl fun fold _ => hfold fold, Finset.sum_add_distrib, ih, List.range_succ,
      List.countP_append, Finset.sum_ite_eq, if_pos (Finset.mem_range.2 (Nat.mod_lt n hk))]

/-- Whether the forest of its fold classifies the row at a position. -/
def classifiesHeldOut (k : ℕ) (rows : List (Array ℚ × Label)) (forests : ℕ → Forest ℚ) (i : ℕ) :
    Bool :=
  rows[i]?.any (forests (i % k)).classifies

/-- The hits are the positions that the model held out from classifies rightly. -/
theorem isHit_iff (hk : 0 < k) (i : ℕ) :
    IsHit k rows forests i ↔ i < rows.length ∧ classifiesHeldOut k rows forests i = true := by
  have hrow : classifiesHeldOut k rows forests i = true ↔
      ∃ row, rows[i]? = some row ∧ (forests (i % k)).predictLabel row.1 = row.2 := by
    simp [classifiesHeldOut, Option.any_eq_true, Forest.classifies]
  rw [hrow]
  constructor
  · rintro ⟨fold, -, hmem, hhit⟩
    obtain ⟨hi, rfl⟩ := mem_foldPositions.1 hmem
    exact ⟨hi, hhit⟩
  · rintro ⟨hi, hhit⟩
    exact ⟨i % k, Nat.mod_lt i hk, mem_foldPositions.2 ⟨hi, rfl⟩, hhit⟩

/-- There are as many hits as rows that are classified rightly. -/
theorem ncard_isHit (hk : 0 < k) :
    {i | IsHit k rows forests i}.ncard =
      (List.range rows.length).countP (classifiesHeldOut k rows forests) := by
  have hhits : {i | IsHit k rows forests i} =
      ((List.range rows.length).filter (classifiesHeldOut k rows forests)).toFinset := by
    ext i
    rw [List.coe_toFinset]
    simpa using isHit_iff hk i
  rw [hhits, Set.ncard_coe_finset, List.toFinset_card_of_nodup (List.nodup_range.filter _),
    List.countP_eq_length_filter]

namespace HoldsOut

variable (h : HoldsOut config k rows cv forests)

include h

/-- The score of a fold counts the rows of the fold that its forest classifies. -/
theorem score_mul_length {fold : ℕ} (hfold : fold < k) :
    cv.scores.getD fold 0 * (foldPositions k rows.length fold).length =
      ((foldPositions k rows.length fold).countP (classifiesHeldOut k rows forests) : ℚ) := by
  have hlength : (entriesAt rows (foldPositions k rows.length fold)).length =
      (foldPositions k rows.length fold).length :=
    length_entriesAt fun i hi => (mem_foldPositions.1 hi).1
  have hcount : (entriesAt rows (foldPositions k rows.length fold)).countP
        (forests fold).classifies =
      (foldPositions k rows.length fold).countP (classifiesHeldOut k rows forests) := by
    rw [entriesAt, List.countP_filterMap]
    refine List.countP_congr fun i hi => ?_
    rw [classifiesHeldOut, (mem_foldPositions.1 hi).2]
    cases rows[i]? <;> rfl
  rw [List.getD_eq_getElem?_getD, h.scored fold hfold, Option.getD_some, ← hlength,
    Forest.accuracy_mul_length, hcount]

theorem score_mem_unit : ∀ score ∈ cv.scores, 0 ≤ score ∧ score ≤ 1 := by
  intro score hscore
  obtain ⟨fold, hfold, rfl⟩ := List.getElem_of_mem hscore
  have hscored := h.scored fold (h.length_scores ▸ hfold)
  rw [List.getElem?_eq_getElem hfold, Option.some_inj] at hscored
  rw [hscored]
  exact Forest.accuracy_mem_unit _ _

/-- The mean of the folds is that of their scores. -/
theorem mean_eq (hk : 0 < k) : cv.mean = Scalar.mean cv.scores := by
  have hlength := h.length_scores
  rw [h.summary]
  simp only [CrossValidation.ofScores, Scalar.mean]
  rw [max_eq_left (by omega)]

/-- The scores and their mean count the hits. -/
theorem countsHits (hk : 0 < k) : CountsHits k rows cv forests where
  score_mem_unit := h.score_mem_unit
  mean_mem_unit := by
    rw [h.mean_eq hk]
    exact Exact.mean_mem_unit h.score_mem_unit
  sum_scores := by
    rw [ncard_isHit hk, ← sum_countP_foldPositions hk, Nat.cast_sum]
    exact Finset.sum_congr rfl fun fold hfold => h.score_mul_length (Finset.mem_range.1 hfold)

end HoldsOut

end Exact

/-! ## Rows of a dataset -/

/-- A lead is encoded with finite values only. -/
theorem isFinite_encode_float (v : Vocabulary) (lead : Lead) :
    ∀ x ∈ (v.encode lead : Array Float), Scalar.isFinite x = true :=
  v.forall_mem_encode (P := fun x : Float => Scalar.isFinite x = true) (by decide) (by decide)
    (fun _ hx => hx) lead

/-- The rows of a dataset can be cross-validated over every vocabulary with a name. -/
theorem exists_holdsOut_encodedRows {α : Type} [Scalar α] [SplitsBetween α] {config : ForestConfig}
    (hconfig : config.IsValid) {d : Dataset} {v : Vocabulary} (hnamed : v.isEmpty = false)
    (hfinite : ∀ (lead : Lead), ∀ x ∈ (v.encode lead : Array α), Scalar.isFinite x = true)
    {k : ℕ} (hlow : 2 ≤ k) (hhigh : k ≤ d.size) :
    ∃ (cv : CrossValidation α) (forests : ℕ → Forest α),
      crossValidate config k (encodedRows d v) = .ok (some cv) ∧
        HoldsOut config k (encodedRows d v) cv forests := by
  have hwidth : 0 < v.size := by
    rw [Vocabulary.isEmpty, List.isEmpty_eq_false_iff] at hnamed
    exact List.length_pos_of_ne_nil hnamed
  refine exists_holdsOut hconfig hwidth ?_ hlow ?_
  · rw [Dataset.encodedRows_eq, List.forall_mem_map]
    intro s _
    refine ⟨Vocabulary.size_encode v _, fun x hx => ?_⟩
    exact hfinite _ x (Array.mem_toList_iff.1 hx)
  · rwa [d.length_encodedRows v]

/-- Cross-validation of two folds or more succeeds on every dataset with as many rows, over every
vocabulary with a name and with all valid parameters.  Each row stands in exactly one fold, where it
is scored by a forest that is fitted on precisely the rows of the other folds.  Folds are not empty,
and their sizes differ by one at most.  With exact numbers the scores and their mean are shares, and
they count the rows that are classified correctly while they are held out. -/
theorem crossValidate_holdsOut {config : ForestConfig} (hconfig : config.IsValid) (d : Dataset)
    (v : Vocabulary) (hnamed : v.isEmpty = false) {k : ℕ} (hlow : 2 ≤ k) (hhigh : k ≤ d.size) :
    PartsEvenly k d.size (foldPositions k d.size) ∧
      (∃ (cv : CrossValidation Float) (forests : ℕ → Forest Float),
        (encodedRows d v : List (Array Float × Label)).length = d.size ∧
          crossValidate config k (encodedRows d v) = .ok (some cv) ∧
          HoldsOut config k (encodedRows d v) cv forests) ∧
      ∃ (cv : CrossValidation ℚ) (forests : ℕ → Forest ℚ),
        (encodedRows d v : List (Array ℚ × Label)).length = d.size ∧
          crossValidate config k (encodedRows d v) = .ok (some cv) ∧
          HoldsOut config k (encodedRows d v) cv forests ∧
          CountsHits k (encodedRows d v) cv forests := by
  have hpos : 0 < k := by omega
  refine ⟨partsEvenly_foldPositions hpos hhigh, ?_, ?_⟩
  · obtain ⟨cv, forests, hcv, hholds⟩ := exists_holdsOut_encodedRows (α := Float) hconfig hnamed
      (isFinite_encode_float v) hlow hhigh
    exact ⟨cv, forests, d.length_encodedRows v, hcv, hholds⟩
  · obtain ⟨cv, forests, hcv, hholds⟩ := exists_holdsOut_encodedRows (α := ℚ) hconfig hnamed
      (fun _ _ _ => Exact.isFinite_eq _) hlow hhigh
    exact ⟨cv, forests, d.length_encodedRows v, hcv, hholds, hholds.countsHits hpos⟩

/-- The indicators of two cities. -/
def cityVocabulary : Vocabulary where
  names := ["City=Paris", "City=Rome"]
  fields := [⟨"City", .categorical, []⟩]
  nodup := by decide

/-- Two folds over two rows. -/
theorem crossValidate_holdsOut_twoCities :
    cityOptions.forest.IsValid ∧ cityVocabulary.isEmpty = false ∧ 2 ≤ 2 ∧ 2 ≤ twoCities.size ∧
      PartsEvenly 2 twoCities.size (foldPositions 2 twoCities.size) ∧
      ∃ (cv : CrossValidation ℚ) (forests : ℕ → Forest ℚ),
        crossValidate cityOptions.forest 2 (encodedRows twoCities cityVocabulary) = .ok (some cv) ∧
          HoldsOut cityOptions.forest 2 (encodedRows twoCities cityVocabulary) cv forests ∧
          CountsHits 2 (encodedRows twoCities cityVocabulary) cv forests := by
  have hconfig : cityOptions.forest.IsValid := ⟨by decide, by decide, by decide⟩
  have hnamed : cityVocabulary.isEmpty = false := by decide
  have hhigh : 2 ≤ twoCities.size := by decide
  obtain ⟨hparts, -, cv, forests, -, hcv, hholds, hcounts⟩ :=
    crossValidate_holdsOut hconfig twoCities cityVocabulary hnamed (le_refl 2) hhigh
  exact ⟨hconfig, hnamed, le_refl 2, hhigh, hparts, cv, forests, hcv, hholds, hcounts⟩

end LeadScoring
