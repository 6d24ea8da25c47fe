import LeadScoring.Pipeline
import LeadScoring.Proofs.Table.Visibility

/-!
# Training does not look at excluded columns

A model must not learn the answer from the target column, nor who a person is from a name or an
address.  Two tables that differ in such cells only lead to the same training run: to the same
error, or to the same model, artifact, digest and report.

Main results:

- Theorem `Dataset.AgreeOutside.encodedRows_eq`: a run sees equal rows.
- Theorem `trainModel_eq_of_agreeOutside`: runs over any schema whose fields keep to visible names.
- Theorem `trainModel_standard_eq`: runs over the standard schema.
-/

namespace LeadScoring

variable {α : Type} [Scalar α]

/-- Tables that agree outside the excluded columns are encoded alike. -/
theorem Dataset.AgreeOutside.encodedRows_eq {schema : Schema} {d d' : Dataset}
    (h : d.AgreeOutside schema d') {v : Vocabulary}
    (hkeys : ∀ f ∈ v.fields, ∀ key ∈ f.lookupKeys, schema.IsVisible key) :
    (encodedRows d v : List (Array α × Label)) = encodedRows d' v := by
  rw [encodedRows, encodedRows, h.matrix_eq hkeys, h.labels_eq]

variable [Json.FractionText α]

/-- A run gives the same answer for tables that agree outside the excluded columns, as long as no
declared field looks one of these up. -/
theorem trainModel_eq_of_agreeOutside {options : TrainingOptions α} {d d' : Dataset}
    (hschema : options.schema.Separated) (h : d.AgreeOutside options.schema d') :
    trainModel options d = trainModel options d' := by
  have harranged : Dataset.AgreeOutside options.schema
      (if options.shuffle then d.shuffle options.forest.seed else d)
      (if options.shuffle then d'.shuffle options.forest.seed else d') := by
    split_ifs
    · exact h.shuffle options.forest.seed
    · exact h
  unfold trainModel
  dsimp only
  generalize (if options.shuffle then d.shuffle options.forest.seed else d) = e at harranged ⊢
  generalize (if options.shuffle then d'.shuffle options.forest.seed else d') = e' at harranged ⊢
  obtain ⟨htrain, htest⟩ := harranged.split options.testFraction options.forest.seed
  have hkeys : ∀ f ∈ (e'.vocabulary options.schema).fields, ∀ key ∈ f.lookupKeys,
      options.schema.IsVisible key :=
    Vocabulary.visible_of_mem_derive hschema
  rw [harranged.vocabulary_eq, harranged.encodedRows_eq hkeys, htrain.encodedRows_eq hkeys,
    htrain.matrix_eq hkeys, htest.matrix_eq hkeys, htrain.labels_eq, htest.labels_eq,
    htrain.isEmpty_eq, htest.isEmpty_eq, harranged.size_eq, htrain.size_eq, htest.size_eq]

/-- Under the standard schema, the cells of the target column and of the columns for names,
addresses and websites decide nothing about a training run, however often such a column occurs. -/
theorem trainModel_standard_eq {options : TrainingOptions α} {d d' : Dataset}
    (hstandard : options.schema = .standard) (h : d.AgreeOutside .standard d') :
    trainModel options d = trainModel options d' :=
  trainModel_eq_of_agreeOutside (hstandard ▸ Schema.separated_standard) (hstandard ▸ h)

/-- Two guests and their cities, under a header that repeats the columns of names and targets. -/
def guests (names targets : List String) : Dataset where
  header := ["Name", "City", "Converted", "Name", "Converted"]
  samples :=
    [⟨[names.getD 0 "", "Paris", targets.getD 0 "", names.getD 1 "", targets.getD 1 ""], .positive⟩,
     ⟨[names.getD 2 "", "Rome", targets.getD 2 "", names.getD 3 "", targets.getD 3 ""], .negative⟩]

/-- Doubles, ten trees, a test split and cross-validation. -/
def guestOptions : TrainingOptions Float where
  forest := { treeCount := 10 }
  testFraction := 0.5
  folds := 2
  shuffle := true
  schema := .standard

/-- Names and spellings of the target have no influence on the model. -/
theorem trainModel_standard_eq_guests :
    Dataset.AgreeOutside .standard (guests ["Ada", "Ada L.", "Bob", ""] ["1", "yes", "0", "no"])
        (guests [] ["maybe"]) ∧
      guests ["Ada", "Ada L.", "Bob", ""] ["1", "yes", "0", "no"] ≠ guests [] ["maybe"] ∧
      trainModel guestOptions (guests ["Ada", "Ada L.", "Bob", ""] ["1", "yes", "0", "no"]) =
        trainModel guestOptions (guests [] ["maybe"]) := by
  have hagree : Dataset.AgreeOutside .standard
      (guests ["Ada", "Ada L.", "Bob", ""] ["1", "yes", "0", "no"]) (guests [] ["maybe"]) := by
    refine ⟨rfl, .cons ⟨rfl, ?_⟩ (.cons ⟨rfl, ?_⟩ .nil)⟩
    all_goals
      intro i column hi hcolumn
      rcases i with _ | _ | _ | _ | _ | i
      all_goals cases hi
      all_goals first | rfl | exact absurd hcolumn (by decide)
  exact ⟨hagree, by decide, trainModel_standard_eq rfl hagree⟩

end LeadScoring
