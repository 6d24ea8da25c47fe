import LeadScoring.Pipeline
import LeadScoring.Proofs.Artifact.RoundTrip
import LeadScoring.Proofs.Attribution.Consistency
import LeadScoring.Proofs.Forest.Training
import LeadScoring.Proofs.Random
import LeadScoring.Proofs.Vocabulary.Derivation

/-!
# Training runs and the scores they lead to

Every check on the scoring side follows from what a training run establishes before it compiles: its
vocabulary is derived from the table, its rows are encoded over that vocabulary, and its trees are
laid out from well-formed ones.

Main results:

- Definition `FittedOn`: what a run establishes about its model before compiling it.
- Theorem `FittedOn.exists_artifact`: such models compile.
- Theorem `compiles_trainModel`: a run fails before compiling, or it has an outcome.
- Theorem `scores_of_trainModel`: no run fails at compiling, and the engine of the stored artifact
  gives every lead the score of the forest.
-/

namespace LeadScoring

/-! ## Rows of a dataset -/

namespace Dataset

theorem size_shuffle (d : Dataset) (seed : UInt64) : (d.shuffle seed).size = d.size :=
  (Generator.shuffle_perm (Generator.ofSeed seed) d.samples).length_eq

/-- Every row has one of the two labels. -/
theorem length_filter_labels (samples : List Sample) :
    (samples.filter fun s => s.label == .negative).length +
      (samples.filter fun s => s.label == .positive).length = samples.length := by
  induction samples with
  | nil => rfl
  | cons s samples ih =>
    cases hlabel : s.label <;> simp [hlabel] <;> omega

/-- A split trains on no more rows than there are. -/
theorem size_split_le {α : Type} [Scalar α] (d : Dataset) (fraction : α) (seed : UInt64) :
    (d.split fraction seed).1.size ≤ d.size := by
  have hlabels := length_filter_labels d.samples
  have hnegatives := (Generator.shuffle_perm (Generator.ofSeed seed)
    (d.samples.filter fun s => s.label == .negative)).length_eq
  have hpositives := (Generator.shuffle_perm (d.members .negative (Generator.ofSeed seed)).2
    (d.samples.filter fun s => s.label == .positive)).length_eq
  simp only [split, members, size] at hlabels hnegatives hpositives ⊢
  rw [(Generator.shuffle_perm _ _).length_eq, List.length_append, List.length_drop,
    List.length_drop]
  omega

/-- Every row is encoded as a lead, next to its label. -/
theorem encodedRows_eq {α : Type} [Scalar α] (d : Dataset) (v : Vocabulary) :
    (encodedRows d v : List (Array α × Label)) =
      d.samples.map fun s => (v.encode (d.leadOf s.cells), s.label) :=
  List.zip_map'

theorem length_encodedRows {α : Type} [Scalar α] (d : Dataset) (v : Vocabulary) :
    (encodedRows d v : List (Array α × Label)).length = d.size := by
  rw [encodedRows_eq, List.length_map, size]

/-- Encoded rows have one value for each name, and there is one for each row. -/
theorem encodedRows_spec {α : Type} [Scalar α] (d : Dataset) (v : Vocabulary) :
    ((encodedRows d v : List (Array α × Label)).map (·.1)).length = d.size ∧
      ∀ row ∈ (encodedRows d v : List (Array α × Label)).map (·.1), row.size = v.size := by
  refine ⟨by rw [List.length_map, length_encodedRows], fun row hrow => ?_⟩
  rw [encodedRows_eq, List.map_map] at hrow
  obtain ⟨s, -, rfl⟩ := List.mem_map.1 hrow
  exact Vocabulary.size_encode v _

end Dataset

/-! ## Fitted models -/

/-- What a training run on a number of rows has established about its model when it compiles it. -/
structure FittedOn (rows : ℕ) (m : FittedModel ℚ) : Prop where
  named : m.vocabulary.isEmpty = false
  produced : m.vocabulary.unproduced? = none
  nonempty : m.forest.trees ≠ []
  /-- The trees are the layouts of well-formed ones, and few rows make small trees. -/
  laidOut : ∃ trees : List (DecisionTree ℚ), m.forest.trees = trees.map FittedTree.ofTree ∧
    ∀ tree ∈ trees, tree.WellFormed m.vocabulary.size ∧ tree.size + 1 ≤ 2 * rows

namespace FittedOn

variable {rows : ℕ} {m : FittedModel ℚ}

/-- Nothing keeps a fitted model from compiling, and its compiled trees are as small as the fitted
ones. -/
theorem exists_artifact (h : FittedOn rows m) :
    ∃ a, m.compile = .ok a ∧ ∀ c ∈ a.trees, c.nodeCount + 1 ≤ 2 * rows := by
  obtain ⟨trees, hlaid, hformed⟩ := h.laidOut
  refine ⟨⟨Artifact.currentVersion, m.vocabulary,
    trees.map (CompiledTree.ofTree fun i => (m.vocabulary.name? i).getD "")⟩, ?_, ?_⟩
  · rw [FittedModel.compile, Artifact.compile_eq_ok_iff]
    refine ⟨h.nonempty, h.named, h.produced, rfl, rfl, ?_⟩
    rw [hlaid, List.forall₂_map_left_iff, List.forall₂_map_right_iff, List.forall₂_same]
    intro tree htree
    exact FittedTree.compile_eq_ok_iff.2
      ⟨tree, FittedTree.unfold_ofTree (hformed tree htree).1, rfl⟩
  · intro c hc
    obtain ⟨tree, htree, rfl⟩ := List.mem_map.1 hc
    rw [CompiledTree.nodeCount_ofTree]
    exact (hformed tree htree).2

end FittedOn

/-! ## Runs -/

/-- A forest trained on encoded rows makes a model that compiles. -/
theorem fittedOn_of_trainOn {config : ForestConfig} {d : Dataset} {v : Vocabulary}
    {trained : TrainedForest ℚ} (h : trainOn config (encodedRows d v) = .ok trained)
    (hnamed : v.isEmpty = false) (hproduced : v.unproduced? = none) {rows : ℕ}
    (hrows : d.size ≤ rows) : FittedOn rows ⟨v, trained.forest⟩ := by
  obtain ⟨hlength, hwidth⟩ := d.encodedRows_spec (α := ℚ) v
  obtain ⟨hnonempty, trees, hlaid, hformed⟩ := Forest.trees_of_train h hwidth
  refine ⟨hnamed, hproduced, hnonempty, trees, hlaid, fun tree htree => ?_⟩
  obtain ⟨hwell, hsize⟩ := hformed tree htree
  exact ⟨hwell, by omega⟩

/-- A run that fails for another reason than compiling, or has an outcome with a property. -/
def Compiles {β : Type} (P : β → Prop) : Except (PipelineError ℚ) β → Prop
  | .error (.compile _) => False
  | .error _ => True
  | .ok b => P b

namespace Compiles

variable {β γ : Type} {P : β → Prop} {Q : γ → Prop}

theorem bind {x : Except (PipelineError ℚ) β} {f : β → Except (PipelineError ℚ) γ}
    (hx : Compiles P x) (hf : ∀ b, P b → Compiles Q (f b)) : Compiles Q (x >>= f) := by
  cases x with
  | error error => cases error <;> exact hx
  | ok b => exact hf b hx

/-- A check may fail for any reason but compiling. -/
theorem guard {p : Prop} [Decidable p] {error : PipelineError ℚ}
    {f : γ → Except (PipelineError ℚ) β} {x : Except (PipelineError ℚ) β}
    (herror : ∀ reason, error ≠ .compile reason) (hx : ¬ p → Compiles P x) :
    Compiles P (if p then throw error >>= f else x) := by
  split_ifs with hp
  · cases error with
    | compile reason => exact absurd rfl (herror reason)
    | _ => trivial
  · exact hx hp

/-- Training may fail. -/
theorem training (x : Except (TrainingError ℚ) β) :
    Compiles (fun b => x = .ok b) (x.mapError .training) := by
  cases x <;> trivial

end Compiles

/-- A run fails for another reason than compiling, or it has an outcome: a model and the artifact
that it compiles to. -/
theorem compiles_trainModel [Json.FractionText ℚ] (options : TrainingOptions ℚ)
    (dataset : Dataset) :
    Compiles (fun outcome => FittedOn dataset.size outcome.model ∧
      outcome.model.compile = .ok outcome.artifact) (trainModel options dataset) := by
  unfold trainModel
  dsimp only
  refine .guard (by rintro _ ⟨⟩) fun _ => ?_
  refine .guard (by rintro _ ⟨⟩) fun hnamed => ?_
  refine .guard (by rintro _ ⟨⟩) fun _ => ?_
  refine .bind (.training _) fun trained htrained => ?_
  refine .bind (.training _) fun crossValidation _ => ?_
  have hsize : (if options.shuffle then dataset.shuffle options.forest.seed else dataset).size =
      dataset.size := by
    split_ifs
    · exact dataset.size_shuffle options.forest.seed
    · rfl
  have hfitted := fittedOn_of_trainOn htrained (Bool.eq_false_iff.2 hnamed)
    (Vocabulary.unproduced?_derive _ _ _) (Dataset.size_split_le _ _ _)
  rw [hsize] at hfitted
  obtain ⟨artifact, hartifact, -⟩ := hfitted.exists_artifact
  rw [hartifact]
  exact ⟨hfitted, hartifact⟩

/-- A run in the order of the table has an outcome if a forest is fitted on the rows to train on and
no folds are asked for. -/
theorem exists_outcome_of_trainOn [Json.FractionText ℚ] {options : TrainingOptions ℚ}
    {dataset : Dataset} {trained : TrainedForest ℚ} (hshuffle : options.shuffle = false)
    (hfolds : options.folds < 2) (hlow : 0 ≤ options.testFraction) (hhigh : options.testFraction < 1)
    (hnamed : (dataset.vocabulary options.schema).isEmpty = false)
    (hrows : (dataset.split options.testFraction options.forest.seed).1.samples ≠ [])
    (htrained : trainOn options.forest (encodedRows
      (dataset.split options.testFraction options.forest.seed).1
      (dataset.vocabulary options.schema)) = .ok trained) :
    ∃ outcome, trainModel options dataset = .ok outcome ∧
      outcome.model = ⟨dataset.vocabulary options.schema, trained.forest⟩ ∧
      outcome.model.compile = .ok outcome.artifact := by
  have hfitted := fittedOn_of_trainOn htrained hnamed (Vocabulary.unproduced?_derive _ _ _) le_rfl
  obtain ⟨artifact, hartifact, -⟩ := hfitted.exists_artifact
  unfold trainModel
  dsimp only
  simp only [hshuffle, Bool.false_eq_true, if_false, Outcome.guard_eq_ok_iff,
    Outcome.bind_eq_ok_iff, Outcome.pure_eq_ok_iff, htrained]
  refine ⟨_, ⟨?_, ?_, ?_, trained, rfl, none, ?_, artifact, ?_, rfl⟩, rfl, hartifact⟩
  · simp [hlow, hhigh]
  · simp [hnamed]
  · simpa [Dataset.isEmpty] using hrows
  · rw [crossValidate, if_pos (Or.inl hfolds)]
    rfl
  · rw [hartifact]
    rfl

namespace Engine

/-- The engine of an artifact's text answers every lead by the forest. -/
theorem score_of_compile [Json.FractionText ℚ] {f : Forest ℚ} {v : Vocabulary} {a : Artifact ℚ}
    (h : Artifact.compile f v = .ok a) (hreads : ∀ x ∈ a.fractions, Json.ReadsBack x)
    (hnodes : ∀ c ∈ a.trees, c.nodeCount ≤ 2 ^ 32) (lead : Lead) :
    ∃ result, (Engine.ofText a.canonical).score lead = (result, .model) ∧
      result.score = f.predict (v.encode lead) := by
  obtain ⟨s, haccepted, rfl, hpredict⟩ := Scorer.predict_of_compile h hnodes
  have hengine : Engine.ofText a.canonical = ⟨some s⟩ := by
    rw [Engine.ofText, Scorer.ofText, Artifact.parse?_canonical hreads]
    dsimp only
    rw [haccepted]
    rfl
  have hscore : s.score lead =
      .ok ⟨f.predict (s.vocabulary.encode lead), signalImpacts (Signals.ofLead lead)⟩ := by
    rw [Scorer.score, hpredict _ (Vocabulary.size_encode _ lead)]
  refine ⟨⟨f.predict (s.vocabulary.encode lead), signalImpacts (Signals.ofLead lead)⟩, ?_, rfl⟩
  rw [hengine, score]
  dsimp only
  rw [hscore]

end Engine

section Trained

variable [Json.FractionText ℚ]

/-- No training run fails at compiling.  Where a run has an outcome and the numbers of its artifact
read back from their spellings, the engine of the stored artifact answers every lead by its model,
with the score that the forest predicts and that the explanation gives, as long as child entries can
hold all slots; tables of at most `2 ^ 31` rows never lead to larger trees. -/
theorem scores_of_trainModel (options : TrainingOptions ℚ) (dataset : Dataset) :
    (∀ reason, trainModel options dataset ≠ .error (.compile reason)) ∧
      ∀ outcome, trainModel options dataset = .ok outcome → ∀ (lead : Lead) (kept : ℕ),
        ∃ e, outcome.model.explainer kept = .ok e ∧
          (e.explain lead).score =
            outcome.model.forest.predict (outcome.model.vocabulary.encode lead) ∧
          ((∀ x ∈ outcome.artifact.fractions, Json.ReadsBack x) →
            (dataset.size ≤ 2 ^ 31 ∨ ∀ c ∈ outcome.artifact.trees, c.nodeCount ≤ 2 ^ 32) →
              ∃ result,
                (Engine.ofText outcome.artifact.canonical).score lead = (result, .model) ∧
                  result.score = (e.explain lead).score) := by
  have hrun := compiles_trainModel options dataset
  constructor
  · intro reason hfailed
    rw [hfailed] at hrun
    exact hrun
  · intro outcome hok lead kept
    rw [hok] at hrun
    obtain ⟨hfitted, hcompile⟩ := hrun
    have hexplainer : outcome.model.explainer kept = .ok _ :=
      Explainer.ofForest_eq_ok_iff.2 ⟨⟨_, hcompile⟩, rfl⟩
    have hexplained := Explainer.score_attributeAligned hexplainer
      (outcome.model.vocabulary.encode lead)
    refine ⟨_, hexplainer, hexplained, fun hreads hnodes => ?_⟩
    have hslots : ∀ c ∈ outcome.artifact.trees, c.nodeCount ≤ 2 ^ 32 := by
      rcases hnodes with hrows | hnodes
      · obtain ⟨a, ha, hsmall⟩ := hfitted.exists_artifact
        cases hcompile.symm.trans ha
        intro c hc
        have hcount := hsmall c hc
        omega
      · exact hnodes
    obtain ⟨result, hanswer, hscore⟩ := Engine.score_of_compile hcompile hreads hslots lead
    exact ⟨result, hanswer, hscore.trans hexplained.symm⟩

end Trained

/-- Rational numbers are spelled as doubles are, with at most twenty places behind the point. -/
instance : Json.FractionText ℚ where
  spell x :=
    let places := ((List.range 20).find? fun k => (x * 10 ^ k).den = 1).getD 20
    let magnitude :=
      if x = 0 then ['0', '.', '0']
      else Layout.json.decimalText ⟨(x * 10 ^ places).num.natAbs, -places⟩
    if x < 0 then '-' :: magnitude else magnitude
  ofNumeral? negative n :=
    let x : ℚ := n.toDecimal.digits * 10 ^ n.toDecimal.exponent
    some (if negative then -x else x)

/-- One tree on all rows, with the cities as categories. -/
def cityOptions : TrainingOptions ℚ where
  forest := { treeCount := 1, tree := { maxFeatures := .all }, bootstrap := false }
  testFraction := 0
  folds := 0
  shuffle := false
  schema := { fields := [⟨"City", .categorical, []⟩], excluded := [Dataset.targetColumn] }

/-- A table of two rows. -/
def twoCities : Dataset where
  header := ["City", Dataset.targetColumn]
  samples := [⟨["Paris", "1"], .positive⟩, ⟨["Rome", "0"], .negative⟩]

/-- Training on two cities succeeds, with the three fractions below. -/
theorem exists_outcome_twoCities : ∃ outcome, trainModel cityOptions twoCities = .ok outcome ∧
    outcome.artifact.fractions = [1 / 2, 1, 0] := by
  have htrained : ∀ rows : List (Array ℚ × Label),
      rows = [(#[1, 0], .positive), (#[0, 1], .negative)] →
        trainOn cityOptions.forest rows =
          .ok ⟨⟨[.ofTree (.split 1 (1 / 2) ⟨1, 1⟩ (.leaf ⟨0, 1⟩) (.leaf ⟨1, 0⟩))]⟩, [0, 1]⟩ := by
    rintro _ rfl
    cbv
  have hrun : ((trainModel cityOptions twoCities).toOption.map fun o => o.artifact.fractions) =
      some [1 / 2, 1, 0] := by
    -- Merge sort does not reduce in the kernel, so the forest is trained first.
    unfold trainModel
    dsimp only
    rw [htrained]
    · decide +kernel
    · decide +kernel
  exact Outcome.exists_of_map_toOption hrun

/-- The engine that is read from the artifact of two cities scores a lead from Rome. -/
theorem scores_of_trainModel_twoCities :
    ∃ outcome, trainModel cityOptions twoCities = .ok outcome ∧
      (∀ x ∈ outcome.artifact.fractions, Json.ReadsBack x) ∧ twoCities.size ≤ 2 ^ 31 ∧
      ∃ e, outcome.model.explainer 3 = .ok e ∧
        ∃ result, (Engine.ofText outcome.artifact.canonical).score
            (Lead.ofColumns [("City", "Rome")]) = (result, .model) ∧
          result.score = (e.explain (Lead.ofColumns [("City", "Rome")])).score := by
  obtain ⟨outcome, houtcome, hfractions⟩ := exists_outcome_twoCities
  have hreads : ∀ x ∈ outcome.artifact.fractions, Json.ReadsBack x := by
    rw [hfractions]
    unfold Json.ReadsBack
    decide +kernel
  have hsize : twoCities.size ≤ 2 ^ 31 := by decide
  obtain ⟨e, he, -, hanswer⟩ := (scores_of_trainModel cityOptions twoCities).2 outcome houtcome
    (Lead.ofColumns [("City", "Rome")]) 3
  exact ⟨outcome, houtcome, hreads, hsize, e, he, hanswer hreads (.inl hsize)⟩

end LeadScoring
