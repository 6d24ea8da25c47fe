import LeadScoring.Proofs.Scorer.Endless
import LeadScoring.Proofs.Scorer.Engine

/-!
# Child entries that wrap around

A child entry has 32 bits, so the table of a tree keeps the slots of children modulo `2 ^ 32`.  As
long as a table has no more nodes than that nothing is lost.  The first slot beyond is kept as that
of the root: if the right part of a tree stands there, a vector that goes right at the root comes
back to the root, and its walk never ends.

Main results:

- Theorem `CompiledTree.endless_ofTree`: a right part whose slot wraps around to the root.
- Theorem `Scorer.exists_ofArtifact_of_compile`: a scorer accepts the table all the same.
- Theorems `Scorer.predict_of_endless`, `Engine.score_of_endless`: it gives up where a walk never
  ends, and an engine then scores by the rules.
-/

namespace LeadScoring

variable {α : Type} [Scalar α]

/-- If the right part of a tree stands at a slot that wraps around to the root, the walk of a vector
that goes right at the root never ends. -/
theorem CompiledTree.endless_ofTree {nameOf : Nat → String} {valueOf : String → α} {feature : Nat}
    {threshold : α} {counts : ClassCounts α} {left right : DecisionTree α}
    (hslot : 2 ^ 32 ∣ 1 + left.size) (hright : ¬ valueOf (nameOf feature) ≤ threshold) :
    Endless ((ofTree nameOf (.split feature threshold counts left right)).move? valueOf) 0 := by
  have hwrapped : (1 + left.size) % 2 ^ 32 = 0 := Nat.mod_eq_zero_of_dvd hslot
  refine ⟨fun _ => 0, rfl, fun _ => ?_⟩
  simpa [move?, ofTree, nodesOf, hright] using hwrapped

/-- No leaf is reached by a walk that never ends. -/
theorem CompiledTree.not_reaches_of_endless {t : CompiledTree α} {valueOf : String → α}
    (h : Endless (t.move? valueOf) 0) (p : α) : ¬ t.Reaches valueOf p := by
  rintro ⟨others, hwalk⟩
  exact hwalk.not_endless h

/-- Slots that are kept modulo `2 ^ 32` still lie inside of the table, so its nodes all bind. -/
theorem BoundTree.exists_boundAs_nodesOf [SharesInUnit α] {v : Vocabulary} {count : Nat}
    {tree : DecisionTree α} (h : tree.WellFormed v.size) (slot : Nat)
    (hcount : slot + tree.size ≤ count) :
    ∃ bound, List.Forall₂ (BoundNode.BoundAs v count)
      (CompiledTree.nodesOf (fun i => (v.name? i).getD "") slot tree) bound := by
  have hwrapped : ∀ child < count, (UInt32.ofNat child).toNat < count := fun child hchild => by
    rw [UInt32.toNat_ofNat']
    exact (Nat.mod_le child _).trans_lt hchild
  induction tree generalizing slot with
  | leaf counts =>
    rcases SharesInUnit.rate_mem_unit counts h with ⟨hnonneg, hle⟩
    exact ⟨_, .cons (.leaf hnonneg hle) .nil⟩
  | split feature threshold counts left right ihl ihr =>
    rcases h with ⟨hfeature, hfinite, hleft, hright⟩
    rcases Vocabulary.isSome_name? hfeature with ⟨name, hname⟩
    rw [DecisionTree.size] at hcount
    have hleftPos := left.size_pos
    have hrightPos := right.size_pos
    rcases ihl hleft (slot + 1) (by omega) with ⟨lefts, hlefts⟩
    rcases ihr hright (slot + 1 + left.size) (by omega) with ⟨rights, hrights⟩
    have hnode := BoundNode.BoundAs.split (v := v) (Vocabulary.indexOf?_of_name? hname)
      hfinite (hwrapped (slot + 1) (by omega)) (hwrapped (slot + 1 + left.size) (by omega))
    rw [CompiledTree.nodesOf, hname]
    exact ⟨_, .cons hnode (List.rel_append hlefts hrights)⟩

/-- Whatever compiles is accepted by a scorer, however many nodes its trees have. -/
theorem Scorer.exists_ofArtifact_of_compile [SharesInUnit α] {f : Forest α} {v : Vocabulary}
    {a : Artifact α} (h : Artifact.compile f v = .ok a) : ∃ s, ofArtifact a = .ok s := by
  rcases Artifact.compile_eq_ok_iff.1 h with ⟨htrees, hnames, hproduced, hversion, rfl, hcompiled⟩
  rcases Artifact.exists_trees_of_compile h with ⟨trees, hunfold, hatrees⟩
  have hformed := wellFormed_of_forall₂ hunfold
  have hbound : ∀ c ∈ a.trees, ∃ b, BoundTree.BoundAs a.vocabulary c b := by
    rw [hatrees, List.forall_mem_map]
    intro tree htree
    have hpos := tree.size_pos
    have hcount := CompiledTree.nodeCount_ofTree (fun i => (a.vocabulary.name? i).getD "") tree
    obtain ⟨bound, hnodes⟩ := BoundTree.exists_boundAs_nodesOf (hformed tree htree) 0
      (le_of_eq ((Nat.zero_add _).trans hcount.symm))
    exact ⟨⟨bound.toArray⟩, by omega, hnodes⟩
  rcases exists_forall₂_iff.2 hbound with ⟨bound, hall⟩
  have hnonempty : a.trees ≠ [] := by
    intro hnil
    rw [hnil, List.forall₂_nil_right_iff] at hcompiled
    exact htrees hcompiled
  exact ⟨⟨a.vocabulary, bound⟩, ofArtifact_eq_ok_iff.2
    ⟨hversion, hnames, hproduced, hnonempty, rfl, bindTrees_eq_ok_iff.2 hall⟩⟩

/-- A scorer gives up on a vector whose walk over the first tree never ends. -/
theorem Scorer.predict_of_endless {a : Artifact α} {s : Scorer α} (hs : ofArtifact a = .ok s)
    {t : CompiledTree α} {others : List (CompiledTree α)} (ht : a.trees = t :: others)
    {values : Array α} (hvalues : values.size = a.vocabulary.size)
    (h : Endless (t.move? (a.vocabulary.valueOf values)) 0) :
    s.predict values = .error (.endlessWalk 0) := by
  rcases boundAs_of_ofArtifact hs with ⟨hvocabulary, htrees⟩
  rw [ht, List.forall₂_cons_left_iff] at htrees
  rcases htrees with ⟨b, bound, hb, -, hbound⟩
  have hnone : b.evaluate values = none := by
    rw [Option.eq_none_iff_forall_ne_some]
    intro p hp
    exact CompiledTree.not_reaches_of_endless h p (hb.evaluate_eq_some_iff.1 hp)
  rw [← hvocabulary] at hvalues
  simp only [predict, probabilities, hvalues, ne_eq, not_true_eq_false, if_false, hbound,
    evaluateTrees, hnone]

/-- An engine scores a lead by the rules if its walk over one of the trees never ends. -/
theorem Engine.score_of_endless [Json.FractionText α] {text : String} {a : Artifact α}
    (hparse : Artifact.parse? text = some a) {t : CompiledTree α} (ht : t ∈ a.trees) {lead : Lead}
    (h : Endless (t.move? (a.vocabulary.valueOf (a.vocabulary.encode lead))) 0) :
    (ofText text : Engine α).score lead = (ruleScore lead, .rules) := by
  rcases score_cases (α := α) text lead with ⟨other, s, ps, hother, -, hps, -⟩ | ⟨-, hscore⟩
  · cases hparse.symm.trans hother
    rcases exists_forall₂_iff.1 ⟨ps, hps⟩ t ht with ⟨p, hp⟩
    exact absurd hp (CompiledTree.not_reaches_of_endless h p)
  · exact hscore

end LeadScoring
