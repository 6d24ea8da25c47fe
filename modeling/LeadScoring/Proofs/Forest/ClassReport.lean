import LeadScoring.Proofs.Forest.Metrics

/-!
# Reports on both classes

A report counts, for each class, its rows, the predictions of it, and the rows that are both.  Its
precision, sensitivity and F1 are quotients of these three numbers, each of them zero where nothing
is counted, and the numbers of both classes together are those of the accuracy.

Main results:

- Definition `ClassMetrics.Measures`: what the measures of a class say about its three numbers.
- Theorem `ClassificationReport.measures_metricsOf`: the guarded quotients say it for all numbers.
- Theorem `ClassificationReport.evaluate_agreesWith_accuracy`: reports and accuracies agree.
-/

namespace LeadScoring

/-! ## The measures of one class -/

/-- The measures of a class by its correct predictions, all predictions of it and all its rows. -/
structure ClassMetrics.Measures (m : ClassMetrics ℚ) (correct predicted support : ℕ) : Prop where
  support_eq : m.support = support
  precision_mul : m.precision * predicted = correct
  sensitivity_mul : m.sensitivity * support = correct
  precision_mem : 0 ≤ m.precision ∧ m.precision ≤ 1
  sensitivity_mem : 0 ≤ m.sensitivity ∧ m.sensitivity ≤ 1
  f1_mem : 0 ≤ m.f1 ∧ m.f1 ≤ 1
  f1_eq : m.f1 =
    if predicted + support = 0 then 0 else (2 * correct : ℚ) / (predicted + support : ℚ)

section Quotients

variable {part whole predicted support : ℕ}

theorem ratio_eq (part whole : ℕ) : (ratio part whole : ℚ) = part / whole := by
  unfold ratio
  split_ifs with hzero
  · rw [hzero, Nat.cast_zero, div_zero]
    rfl
  · rfl

/-- A share of a whole times the whole is the part. -/
theorem ratio_mul (h : part ≤ whole) : (ratio part whole : ℚ) * whole = part := by
  rw [ratio_eq]
  rcases Nat.eq_zero_or_pos whole with rfl | hpos
  · rw [Nat.le_zero.1 h]
    simp
  · exact div_mul_cancel₀ _ (by positivity)

/-- Shares lie between zero and one. -/
theorem ratio_mem_unit (h : part ≤ whole) :
    0 ≤ (ratio part whole : ℚ) ∧ (ratio part whole : ℚ) ≤ 1 := by
  rw [ratio_eq]
  exact ⟨by positivity, div_le_one_of_le₀ (Nat.cast_le.2 h) (Nat.cast_nonneg _)⟩

/-- The harmonic mean of two shares, zero if both are. -/
theorem harmonicMean_eq (x y : ℚ) :
    harmonicMean x y = if 0 < x + y then 2 * x * y / (x + y) else 0 := by
  have htwo : @OfScientific.ofScientific ℚ Scalar.toOfScientific 20 true 1 = 2 := by norm_num
  rw [← htwo]
  rfl

/-- The harmonic mean of the shares of one part in two wholes is its share in both together. -/
theorem harmonicMean_ratio (hpredicted : part ≤ predicted) (hsupport : part ≤ support) :
    harmonicMean (ratio part predicted : ℚ) (ratio part support) =
      2 * part / (predicted + support) := by
  rw [harmonicMean_eq, ratio_eq, ratio_eq]
  rcases Nat.eq_zero_or_pos part with rfl | hpos
  · simp
  · have hpart_pos : (0 : ℚ) < part := by exact_mod_cast hpos
    have hpredicted_pos : (0 : ℚ) < predicted := by exact_mod_cast hpos.trans_le hpredicted
    have hsupport_pos : (0 : ℚ) < support := by exact_mod_cast hpos.trans_le hsupport
    rw [if_pos (by positivity)]
    field_simp
    ring

end Quotients

namespace ClassificationReport

/-- The measures of a class whose correct predictions are predictions of it and rows of it. -/
theorem measures_metricsOf {correct predicted support : ℕ} (hpredicted : correct ≤ predicted)
    (hsupport : correct ≤ support) :
    (metricsOf correct predicted support).Measures correct predicted support where
  support_eq := rfl
  precision_mul := ratio_mul hpredicted
  sensitivity_mul := ratio_mul hsupport
  precision_mem := ratio_mem_unit hpredicted
  sensitivity_mem := ratio_mem_unit hsupport
  f1_mem := by
    have htwice : (2 * correct : ℚ) ≤ predicted + support := by
      exact_mod_cast (by omega : 2 * correct ≤ predicted + support)
    rw [metricsOf, harmonicMean_ratio hpredicted hsupport]
    exact ⟨by positivity, div_le_one_of_le₀ htwice (by positivity)⟩
  f1_eq := by
    rw [metricsOf, harmonicMean_ratio hpredicted hsupport]
    split_ifs with hzero
    · rw [← Nat.cast_add, hzero, Nat.cast_zero, div_zero]
    · rfl

/-! ## Counting rows -/

/-- Whatever is counted has one of the two labels. -/
theorem countP_add_countP {β : Type} (p : β → Bool) (label : β → Label) (xs : List β) :
    (xs.countP fun x => p x && label x == .negative) +
      (xs.countP fun x => p x && label x == .positive) = xs.countP p := by
  induction xs with
  | nil => rfl
  | cons x xs ih =>
    rw [List.countP_cons, List.countP_cons, List.countP_cons, ← ih]
    cases p x <;> cases label x <;> simp <;> omega

section Counts

variable (f : Forest ℚ) (rows : List (Array ℚ × Label))

/-- An entry of the confusion matrix counts the rows of a label that a forest takes for another. -/
theorem confusion_eq (actual predicted : Label) :
    f.confusion (rows.map (·.1)) (rows.map (·.2)) actual predicted =
      rows.countP fun row => row.2 == actual && f.predictLabel row.1 == predicted := by
  rw [Forest.confusion, List.zip_map', List.countP_map]
  rfl

/-- The predictions of a class are made for rows of either class. -/
theorem confusion_add_actual (c : Label) :
    f.confusion (rows.map (·.1)) (rows.map (·.2)) .negative c +
        f.confusion (rows.map (·.1)) (rows.map (·.2)) .positive c =
      (rows.map (·.1)).countP fun row => f.predictLabel row == c := by
  simp only [confusion_eq, Bool.and_comm (_ == Label.negative), Bool.and_comm (_ == Label.positive)]
  rw [countP_add_countP, List.countP_map]
  rfl

/-- For the rows of a class either class is predicted. -/
theorem confusion_add_predicted (c : Label) :
    f.confusion (rows.map (·.1)) (rows.map (·.2)) c .negative +
        f.confusion (rows.map (·.1)) (rows.map (·.2)) c .positive =
      (rows.map (·.2)).count c := by
  simp only [confusion_eq]
  rw [countP_add_countP, List.count, List.countP_map]
  rfl

/-- The correct predictions of both classes are the rows that the accuracy counts. -/
theorem confusion_add_classifies :
    f.confusion (rows.map (·.1)) (rows.map (·.2)) .negative .negative +
        f.confusion (rows.map (·.1)) (rows.map (·.2)) .positive .positive =
      rows.countP f.classifies := by
  have hhit : ∀ c, (fun row : Array ℚ × Label => row.2 == c && f.predictLabel row.1 == c) =
      fun row => f.classifies row && row.2 == c := by
    intro c
    funext row
    unfold Forest.classifies
    cases row.2 <;> cases f.predictLabel row.1 <;> cases c <;> rfl
  rw [confusion_eq, confusion_eq, hhit, hhit, countP_add_countP]

/-- Each label is one of the two. -/
theorem count_add_count (labels : List Label) :
    labels.count .negative + labels.count .positive = labels.length := by
  rw [← List.countP_true, ← countP_add_countP (fun _ => true) id labels]
  rfl

end Counts

/-! ## Reports -/

/-- The measures of one of the classes. -/
def of {α : Type} (r : ClassificationReport α) : Label → ClassMetrics α
  | .negative => r.negative
  | .positive => r.positive

section Evaluated

variable (f : Forest ℚ) (rows : List (Array ℚ × Label))

/-- The measures of each class are those of its rows and of the predictions of it. -/
theorem measures_evaluate (c : Label) :
    ((evaluate f (rows.map (·.1)) (rows.map (·.2))).of c).Measures
      (f.confusion (rows.map (·.1)) (rows.map (·.2)) c c)
      ((rows.map (·.1)).countP fun row => f.predictLabel row == c)
      ((rows.map (·.2)).count c) := by
  have hof : (evaluate f (rows.map (·.1)) (rows.map (·.2))).of c =
      metricsOf (f.confusion (rows.map (·.1)) (rows.map (·.2)) c c)
        (f.confusion (rows.map (·.1)) (rows.map (·.2)) .negative c +
          f.confusion (rows.map (·.1)) (rows.map (·.2)) .positive c)
        (f.confusion (rows.map (·.1)) (rows.map (·.2)) c .negative +
          f.confusion (rows.map (·.1)) (rows.map (·.2)) c .positive) := by
    cases c <;> rfl
  rw [hof, ← confusion_add_actual, ← confusion_add_predicted]
  apply measures_metricsOf
  · cases c <;> omega
  · cases c <;> omega

end Evaluated

/-- A report on labelled rows that counts what the accuracy counts.  The supports of both classes
are all rows, and the rows that are predicted correctly are those of the accuracy.  The measures of
a class are determined by its rows, the predictions of it and the rows that are both. -/
structure AgreesWith (report : ClassificationReport ℚ) (f : Forest ℚ)
    (features : List (Array ℚ)) (labels : List Label) : Prop where
  supports : report.negative.support + report.positive.support = features.length
  hits : report.negative.sensitivity * report.negative.support +
    report.positive.sensitivity * report.positive.support =
      f.accuracy features labels * features.length
  measures : ∀ c, (report.of c).Measures (f.confusion features labels c c)
    (features.countP fun row => f.predictLabel row == c) (labels.count c)

/-- The report of a forest on labelled rows has the supports of the labels and the hits of the
accuracy, its measures are shares, and the F1 scores are harmonic means. -/
theorem evaluate_agreesWith_accuracy (f : Forest ℚ) {features : List (Array ℚ)}
    {labels : List Label} (h : features.length = labels.length) :
    (evaluate f features labels).AgreesWith f features labels := by
  obtain ⟨rows, rfl, rfl⟩ : ∃ rows : List (Array ℚ × Label),
      features = rows.map (·.1) ∧ labels = rows.map (·.2) :=
    ⟨features.zip labels, (List.map_fst_zip h.le).symm, (List.map_snd_zip h.ge).symm⟩
  have hmeasures := measures_evaluate f rows
  have hsupport : ∀ c, ((evaluate f (rows.map (·.1)) (rows.map (·.2))).of c).support =
      (rows.map (·.2)).count c := fun c => (hmeasures c).support_eq
  refine ⟨?_, ?_, hmeasures⟩
  · rw [h, ← count_add_count, ← hsupport, ← hsupport]
    rfl
  · have hhits := fun c => (hmeasures c).sensitivity_mul
    simp only [← hsupport] at hhits
    calc
      _ = (f.confusion (rows.map (·.1)) (rows.map (·.2)) .negative .negative : ℚ) +
          f.confusion (rows.map (·.1)) (rows.map (·.2)) .positive .positive := by
        rw [← hhits, ← hhits]
        rfl
      _ = rows.countP f.classifies := by rw [← confusion_add_classifies, Nat.cast_add]
      _ = _ := by rw [List.length_map, Forest.accuracy_mul_length]

/-- A tree that splits the rows at five and a half. -/
def middleStump : FittedTree ℚ where
  feature := #[0, -2, -2]
  threshold := #[11 / 2, -2, -2]
  childrenLeft := #[1, -1, -1]
  childrenRight := #[2, -1, -1]
  counts := #[⟨3, 3⟩, ⟨3, 0⟩, ⟨0, 3⟩]

/-- The report of a stump on four rows, one of which it gets wrong. -/
theorem evaluate_agreesWith_accuracy_fourRows :
    ([#[1], #[9], #[2], #[8]] : List (Array ℚ)).length =
        [Label.negative, .positive, .positive, .positive].length ∧
      (evaluate ⟨[middleStump]⟩ [#[1], #[9], #[2], #[8]]
          [.negative, .positive, .positive, .positive]).AgreesWith
        ⟨[middleStump]⟩ [#[1], #[9], #[2], #[8]] [.negative, .positive, .positive, .positive] :=
  ⟨rfl, evaluate_agreesWith_accuracy ⟨[middleStump]⟩ rfl⟩

end ClassificationReport

end LeadScoring
