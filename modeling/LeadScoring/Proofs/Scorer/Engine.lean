import LeadScoring.Proofs.Artifact.Acceptance
import LeadScoring.Proofs.Related
import LeadScoring.Proofs.Scorer.Bound
import LeadScoring.Proofs.Vocabulary.Derivation

/-!
# An answer for every text and every lead

The engine is made from any text.  Whatever makes the text unusable is found when its artifact is
bound, except for tables whose walk runs in a circle for some leads; those show at scoring.  This
module says when the model answers, that no position outside a table or a vector is ever looked up,
and that every answer is a probability with five impacts in a fixed order.

Main results:

- Theorem `Scorer.boundAs_of_ofArtifact`: an accepted artifact has been bound tree by tree.
- Theorem `Scorer.BoundAs.score_cases`: the score of a lead is the mean of what the walks come to.
- Definition `Engine.ModelAnswers` and theorem `Engine.score_cases`: the model answers or the rules.
- Theorem `Engine.score_ofText`: what holds of every answer.
-/

namespace LeadScoring

/-! ## Scorers -/

namespace Scorer

variable {α : Type} [Scalar α]

/-- Trees bind exactly if each of them does. -/
theorem bindTrees_eq_ok_iff {v : Vocabulary} {first : Nat} {trees : List (CompiledTree α)}
    {bound : List (BoundTree α)} :
    bindTrees v first trees = .ok bound ↔ List.Forall₂ (BoundTree.BoundAs v) trees bound := by
  induction trees generalizing first bound with
  | nil =>
    rw [bindTrees, List.forall₂_nil_left_iff]
    simp only [Except.ok.injEq, eq_comm]
  | cons tree trees ih =>
    rw [bindTrees, List.forall₂_cons_left_iff]
    simp only [Outcome.bind_eq_ok_iff, Outcome.pure_eq_ok_iff, BoundTree.bind_eq_ok_iff, ih]
    constructor
    · rintro ⟨b, htree, others, hothers, rfl⟩
      exact ⟨b, others, htree, hothers, rfl⟩
    · rintro ⟨b, others, htree, hothers, rfl⟩
      exact ⟨b, htree, others, hothers, rfl⟩

/-- A scorer stands for an artifact: it has the same vocabulary, and a bound tree for each tree. -/
structure BoundAs (a : Artifact α) (s : Scorer α) : Prop where
  vocabulary : s.vocabulary = a.vocabulary
  trees : List.Forall₂ (BoundTree.BoundAs a.vocabulary) a.trees s.trees

/-- An artifact that is accepted has been bound tree by tree. -/
theorem boundAs_of_ofArtifact {a : Artifact α} {s : Scorer α} (h : ofArtifact a = .ok s) :
    BoundAs a s := by
  obtain ⟨-, -, -, -, hvocabulary, htrees⟩ := ofArtifact_eq_ok_iff.1 h
  exact ⟨hvocabulary, bindTrees_eq_ok_iff.1 htrees⟩

/-- Nothing leads out of the tables of a scorer. -/
theorem BoundAs.inRange {a : Artifact α} {s : Scorer α} (h : BoundAs a s) :
    ∀ t ∈ s.trees, t.InRange s.vocabulary.size := by
  intro t ht
  obtain ⟨i, hi, rfl⟩ := List.getElem_of_mem ht
  have hlength := h.trees.length_eq
  rw [h.vocabulary]
  exact (h.trees.get (by omega) hi).inRange

/-- Trees answer exactly if each of them does. -/
theorem evaluateTrees_eq_ok_iff {values : Array α} (first : Nat) {trees : List (BoundTree α)}
    {ps : List α} :
    evaluateTrees values first trees = .ok ps ↔
      List.Forall₂ (fun t p => t.evaluate values = some p) trees ps := by
  induction trees generalizing first ps with
  | nil =>
    rw [evaluateTrees, List.forall₂_nil_left_iff]
    simp only [Except.ok.injEq, eq_comm]
  | cons tree trees ih =>
    rw [evaluateTrees, List.forall₂_cons_left_iff]
    constructor
    · intro h
      split at h
      · cases h
      · rename_i p hp
        split at h
        · rename_i others hothers
          cases h
          exact ⟨p, others, hp, (ih (first + 1)).1 hothers, rfl⟩
        · cases h
    · rintro ⟨p, others, hp, hothers, rfl⟩
      rw [hp, (ih (first + 1)).2 hothers]

/-- The answers of a scorer are those of the walks by names over the tables of its artifact. -/
theorem BoundAs.forall₂_evaluate_iff {a : Artifact α} {s : Scorer α} (h : BoundAs a s)
    {values : Array α} {ps : List α} :
    List.Forall₂ (fun t p => t.evaluate values = some p) s.trees ps ↔
      List.Forall₂ (fun t p => t.Reaches (a.vocabulary.valueOf values) p) a.trees ps :=
  forall₂_congr_left h.trees fun _ _ _ htree => htree.evaluate_eq_some_iff

/-- The answers of walks over the tables of a bound artifact are probabilities. -/
theorem BoundAs.mem_unit_of_reaches {a : Artifact α} {s : Scorer α} (h : BoundAs a s)
    {values : Array α} {ps : List α}
    (hps : List.Forall₂ (fun t p => t.Reaches (a.vocabulary.valueOf values) p) a.trees ps) :
    ∀ p ∈ ps, 0 ≤ p ∧ p ≤ 1 := by
  have hevaluate := h.forall₂_evaluate_iff.2 hps
  have hlength := hevaluate.length_eq
  intro p hp
  obtain ⟨i, hi, rfl⟩ := List.getElem_of_mem hp
  have hrange := h.inRange s.trees[i] (List.getElem_mem _)
  exact hrange.mem_unit_of_evaluate (hevaluate.get (by omega) hi)

/-- For a lead either all walks come to a leaf, and the score is the mean of their probabilities as
long as that is finite, or one does not and there is no score. -/
theorem BoundAs.score_cases {a : Artifact α} {s : Scorer α} (h : BoundAs a s) (lead : Lead) :
    (∃ ps,
        List.Forall₂ (fun t p => t.Reaches (a.vocabulary.valueOf (a.vocabulary.encode lead)) p)
          a.trees ps ∧
        s.score lead =
          if Scalar.isFinite (Scalar.mean ps) then
            .ok ⟨Scalar.mean ps, signalImpacts (Signals.ofLead lead)⟩
          else .error .nonFiniteScore) ∨
      (¬ ∃ ps,
        List.Forall₂ (fun t p => t.Reaches (a.vocabulary.valueOf (a.vocabulary.encode lead)) p)
          a.trees ps) ∧
        ∃ failure, s.score lead = .error failure := by
  have hsize : ¬ (a.vocabulary.encode lead : Array α).size ≠ a.vocabulary.size :=
    not_not_intro (Vocabulary.size_encode _ lead)
  simp only [score, predict, probabilities, h.vocabulary, if_neg hsize, ← h.forall₂_evaluate_iff,
    ← evaluateTrees_eq_ok_iff 0]
  cases evaluateTrees (a.vocabulary.encode lead) 0 s.trees with
  | error failure => exact Or.inr ⟨by simp, failure, rfl⟩
  | ok ps =>
    refine Or.inl ⟨ps, rfl, ?_⟩
    by_cases hfinite : Scalar.isFinite (Scalar.mean ps) = true <;> simp [hfinite]

end Scorer

/-! ## The rules -/

/-- No signal counts against a lead. -/
theorem uncappedRuleScore_nonneg (s : Signals) : (0 : ℚ) ≤ uncappedRuleScore s := by
  have hviews : (0 : ℚ) ≤ pageViewsImpact s.pageViews :=
    ite_nonneg (by norm_num) (ite_nonneg (by norm_num) le_rfl)
  have hdownloads : (0 : ℚ) ≤ downloadsImpact s.downloads :=
    ite_nonneg (by norm_num) (ite_nonneg (by norm_num) le_rfl)
  have hwebinar : (0 : ℚ) ≤ webinarImpact s.webinarAttended := ite_nonneg (by norm_num) le_rfl
  have hindustry : (0 : ℚ) ≤ industryImpact s.hasHighValueIndustry :=
    ite_nonneg (by norm_num) le_rfl
  have htitle : (0 : ℚ) ≤ titleImpact s.hasSeniorTitle := ite_nonneg (by norm_num) le_rfl
  have hsize : (0 : ℚ) ≤ sizeImpact s.sizeTier := by
    cases s.sizeTier with
    | enterprise | midMarket => norm_num [sizeImpact]
    | other => exact le_rfl
  have hstart : (0 : ℚ) ≤ @OfScientific.ofScientific ℚ Scalar.toOfScientific 3 true 1 := by norm_num
  exact add_nonneg (add_nonneg (add_nonneg (add_nonneg (add_nonneg (add_nonneg hstart hviews)
    hdownloads) hwebinar) hsize) hindustry) htitle

/-- The rules give every lead a score between zero and one. -/
theorem ruleScore_mem_unit (lead : Lead) :
    0 ≤ (ruleScore lead : Scored ℚ).score ∧ (ruleScore lead : Scored ℚ).score ≤ 1 := by
  have huncapped := uncappedRuleScore_nonneg (Signals.ofLead lead)
  change 0 ≤ Scalar.capAtOne _ ∧ Scalar.capAtOne _ ≤ 1
  unfold Scalar.capAtOne
  split
  · exact ⟨huncapped, le_of_lt ‹_›⟩
  · exact ⟨(by norm_num : (0 : ℚ) ≤ 1), le_rfl⟩

/-! ## The engine -/

/-- The label under which an explanation lists the webinar. -/
def ScoreSource.webinarLabel : ScoreSource → String
  | .model => "Webinar Attended"
  | .rules => "Webinar Attendance"

namespace Engine

/-- The model can answer for a lead: the text has an artifact, scorers accept it, and over each of
its tables the walk for the encoded lead comes to a leaf. -/
def ModelAnswers (α : Type) [Scalar α] [Json.FractionText α] (text : String) (lead : Lead) : Prop :=
  ∃ a : Artifact α, Artifact.parse? text = some a ∧ (∃ s, Scorer.ofArtifact a = .ok s) ∧
    ∀ t ∈ a.trees, ∃ p, t.Reaches (a.vocabulary.valueOf (a.vocabulary.encode lead)) p

section Sources

variable {α : Type} [Scalar α] [Json.FractionText α]

/-- A text has a scorer exactly if it has an artifact that is accepted. -/
theorem scorer_ofText_eq_ok_iff {text : String} {s : Scorer α} :
    Scorer.ofText text = .ok s ↔
      ∃ a : Artifact α, Artifact.parse? text = some a ∧ Scorer.ofArtifact a = .ok s := by
  rw [Scorer.ofText]
  cases (Artifact.parse? text : Option (Artifact α)) with
  | none => simp
  | some a => simp

/-- Either the model can answer, and its score is the mean of the probabilities that the walks come
to, or it cannot.  The rules answer if it cannot or if the mean is not finite. -/
theorem score_cases (text : String) (lead : Lead) :
    (∃ (a : Artifact α) (s : Scorer α) (ps : List α),
        Artifact.parse? text = some a ∧ Scorer.ofArtifact a = .ok s ∧
        List.Forall₂ (fun t p => t.Reaches (a.vocabulary.valueOf (a.vocabulary.encode lead)) p)
          a.trees ps ∧
        (ofText text : Engine α).score lead =
          if Scalar.isFinite (Scalar.mean ps) then
            (⟨Scalar.mean ps, signalImpacts (Signals.ofLead lead)⟩, .model)
          else (ruleScore lead, .rules)) ∨
      ¬ ModelAnswers α text lead ∧
        (ofText text : Engine α).score lead = (ruleScore lead, .rules) := by
  rw [score, ofText]
  cases hscorer : (Scorer.ofText text : Except (ScoringFailure α) (Scorer α)) with
  | error failure =>
    refine Or.inr ⟨?_, rfl⟩
    rintro ⟨a, hparse, ⟨s, haccepted⟩, -⟩
    cases hscorer.symm.trans (scorer_ofText_eq_ok_iff.2 ⟨a, hparse, haccepted⟩)
  | ok s =>
    obtain ⟨a, hparse, haccepted⟩ := scorer_ofText_eq_ok_iff.1 hscorer
    have hbound := Scorer.boundAs_of_ofArtifact haccepted
    rcases hbound.score_cases lead with ⟨ps, hps, hscore⟩ | ⟨hnone, failure, hscore⟩
    · refine Or.inl ⟨a, s, ps, hparse, haccepted, hps, ?_⟩
      by_cases hfinite : Scalar.isFinite (Scalar.mean ps) = true <;>
        simp [Except.toOption, hscore, hfinite]
    · refine Or.inr ⟨?_, by simp [Except.toOption, hscore]⟩
      rintro ⟨a', hparse', -, hstop⟩
      cases hparse.symm.trans hparse'
      exact hnone (exists_forall₂_iff.2 hstop)

end Sources

/-- Every text and every lead have an answer: a probability with five impacts in a fixed order.  It
is the model's exactly if the model can answer, and in every other case it is that of the rules.
Where there is a scorer, encoded leads fit it and no entry leads out of its tables. -/
theorem score_ofText [Json.FractionText ℚ] (text : String) (lead : Lead) :
    ∃ result source, (ofText text : Engine ℚ).score lead = (result, source) ∧
      (0 ≤ result.score ∧ result.score ≤ 1) ∧
      result.explanation.map Impact.feature =
        ["Page Views", "Downloads", source.webinarLabel, "Company Size", "Industry"] ∧
      (source = .model ↔ ModelAnswers ℚ text lead) ∧
      (source ≠ .model → result = ruleScore lead) ∧
      ∀ s : Scorer ℚ, Scorer.ofText text = .ok s →
        (s.vocabulary.encode lead : Array ℚ).size = s.vocabulary.size ∧
          ∀ t ∈ s.trees, t.InRange s.vocabulary.size := by
  have hinside : ∀ s : Scorer ℚ, Scorer.ofText text = .ok s →
      (s.vocabulary.encode lead : Array ℚ).size = s.vocabulary.size ∧
        ∀ t ∈ s.trees, t.InRange s.vocabulary.size := by
    intro s hs
    obtain ⟨a, -, haccepted⟩ := scorer_ofText_eq_ok_iff.1 hs
    exact ⟨Vocabulary.size_encode _ lead, (Scorer.boundAs_of_ofArtifact haccepted).inRange⟩
  rcases score_cases (α := ℚ) text lead with
    ⟨a, s, ps, hparse, haccepted, hps, hscore⟩ | ⟨hnone, hscore⟩
  · rw [if_pos (Exact.isFinite_eq _)] at hscore
    have hunit := (Scorer.boundAs_of_ofArtifact haccepted).mem_unit_of_reaches hps
    refine ⟨_, _, hscore, Exact.mean_mem_unit hunit, rfl, ?_, fun h => absurd rfl h, hinside⟩
    exact iff_of_true rfl ⟨a, hparse, ⟨s, haccepted⟩, exists_forall₂_iff.1 ⟨ps, hps⟩⟩
  · refine ⟨_, _, hscore, ruleScore_mem_unit lead, rfl, ?_, fun _ => rfl, hinside⟩
    exact iff_of_false (by simp) hnone

end Engine

end LeadScoring
