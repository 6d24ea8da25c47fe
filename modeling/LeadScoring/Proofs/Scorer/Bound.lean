import LeadScoring.Proofs.Scorer.Walk
import LeadScoring.Proofs.Vocabulary.Encoding
import Mathlib.Data.List.Forall2

/-!
# What binding keeps of a table

Binding refuses whatever could disturb a walk: a name that the vocabulary does not list, a threshold
that is not finite, a child outside the table, an answer that is no probability.  This module says
node by node what binding checks and what it leaves as it was.  A walk by names over the table of an
artifact and a walk by positions over its bound table therefore make the same moves.

Main results:

- Definition `BoundNode.BoundAs`: a bound node stands for a compiled one.
- Theorem `BoundTree.bind_eq_ok_iff`: binding decides that relation, node by node.
- Theorem `BoundTree.BoundAs.inRange`: nothing leads out of a bound table.
- Definition `CompiledTree.Reaches` and theorem `BoundTree.BoundAs.evaluate_eq_some_iff`: evaluation
  answers what the walk by names reaches.
-/

namespace LeadScoring

variable {α : Type} [Scalar α]

/-! ## Nodes -/

/-- A bound node stands for a compiled one of a table with `count` nodes: its feature is the
position of the name, its children and its numbers are the same, and they pass their checks. -/
inductive BoundNode.BoundAs (v : Vocabulary) (count : Nat) : CompiledNode α → BoundNode α → Prop
  | split {name : String} {threshold : α} {left right : UInt32} {feature : Nat}
      (position : v.indexOf? name = some feature) (finite : Scalar.isFinite threshold = true)
      (left_lt : left.toNat < count) (right_lt : right.toNat < count) :
      BoundAs v count (.split name threshold left right)
        (.split feature threshold left.toNat right.toNat)
  | leaf {probability : α} (nonneg : 0 ≤ probability) (le_one : probability ≤ 1) :
      BoundAs v count (.leaf probability) (.leaf probability)

namespace BoundTree

variable {v : Vocabulary} {number count first : Nat}

omit [Scalar α] in
/-- A child is bound exactly if its slot is one of the nodes. -/
theorem bindChild_eq_ok_iff {node child : Nat} {slot : UInt32} :
    (bindChild number count node slot : Except (ScoringFailure α) Nat) = .ok child ↔
      slot.toNat < count ∧ slot.toNat = child := by
  unfold bindChild
  split_ifs with h <;> simp [h]

/-- Binding a node decides what it may stand for. -/
theorem bindNode_eq_ok_iff {node : Nat} {compiled : CompiledNode α} {bound : BoundNode α} :
    bindNode v number count node compiled = .ok bound ↔
      BoundNode.BoundAs v count compiled bound := by
  cases compiled with
  | leaf probability =>
    rw [bindNode]
    constructor
    · intro h
      split_ifs at h with hunit
      cases h
      exact .leaf hunit.1 hunit.2
    · rintro (_ | ⟨nonneg, le_one⟩)
      exact if_pos ⟨nonneg, le_one⟩
  | split name threshold left right =>
    rw [bindNode]
    cases hposition : v.indexOf? name with
    | none =>
      constructor
      · intro h
        cases h
      · rintro (⟨position, -, -, -⟩ | _)
        cases hposition.symm.trans position
    | some feature =>
      simp only [Outcome.bind_eq_ok_iff, Outcome.pure_eq_ok_iff, Outcome.guard_eq_ok_iff,
        bindChild_eq_ok_iff, Bool.not_eq_true', Bool.not_eq_false]
      constructor
      · rintro ⟨_, rfl, hfinite, _, ⟨hleft, rfl⟩, _, ⟨hright, rfl⟩, rfl⟩
        exact .split hposition hfinite hleft hright
      · rintro (⟨position, hfinite, hleft, hright⟩ | _)
        cases hposition.symm.trans position
        exact ⟨feature, rfl, hfinite, _, ⟨hleft, rfl⟩, _, ⟨hright, rfl⟩, rfl⟩

/-- Nodes are bound one by one, each as what it stands for. -/
theorem bindNodes_eq_ok_iff {nodes : List (CompiledNode α)} {bound : List (BoundNode α)} :
    bindNodes v number count first nodes = .ok bound ↔
      List.Forall₂ (BoundNode.BoundAs v count) nodes bound := by
  induction nodes generalizing first bound with
  | nil =>
    rw [bindNodes, List.forall₂_nil_left_iff]
    simp only [Except.ok.injEq, eq_comm]
  | cons node nodes ih =>
    rw [bindNodes, List.forall₂_cons_left_iff]
    simp only [Outcome.bind_eq_ok_iff, Outcome.pure_eq_ok_iff, bindNode_eq_ok_iff, ih]
    constructor
    · rintro ⟨b, hnode, others, hothers, rfl⟩
      exact ⟨b, others, hnode, hothers, rfl⟩
    · rintro ⟨b, others, hnode, hothers, rfl⟩
      exact ⟨b, hnode, others, hothers, rfl⟩

/-! ## Tables -/

/-- A bound table stands for a compiled one: it has nodes, and each of them stands for the compiled
node at its position. -/
structure BoundAs (v : Vocabulary) (t : CompiledTree α) (b : BoundTree α) : Prop where
  nonempty : 0 < t.nodeCount
  nodes : List.Forall₂ (BoundNode.BoundAs v t.nodeCount) t.nodes.toList b.nodes.toList

/-- Binding decides what a table may stand for. -/
theorem bind_eq_ok_iff {t : CompiledTree α} {b : BoundTree α} :
    bind v number t = .ok b ↔ BoundAs v t b := by
  have hnonempty : ¬ t.nodes.isEmpty = true ↔ 0 < t.nodeCount := by
    rw [Bool.not_eq_true, Array.isEmpty_eq_false_iff, ← Array.size_pos_iff]
    rfl
  rw [bind]
  simp only [Outcome.guard_eq_ok_iff, Outcome.bind_eq_ok_iff, Outcome.pure_eq_ok_iff,
    bindNodes_eq_ok_iff, hnonempty]
  constructor
  · rintro ⟨hpos, bound, hnodes, rfl⟩
    exact ⟨hpos, hnodes⟩
  · rintro ⟨hpos, hnodes⟩
    exact ⟨hpos, b.nodes.toList, hnodes, rfl⟩

namespace BoundAs

variable {t : CompiledTree α} {b : BoundTree α}

theorem size_eq (h : BoundAs v t b) : b.nodes.size = t.nodeCount := by
  simpa [CompiledTree.nodeCount] using h.nodes.length_eq.symm

/-- Nothing leads out of a bound table. -/
theorem inRange (h : BoundAs v t b) : b.InRange v.size := by
  refine ⟨h.size_eq ▸ h.nonempty, fun node hnode => ?_⟩
  rw [h.size_eq]
  obtain ⟨i, hi, rfl⟩ := List.getElem_of_mem (Array.mem_toList_iff.2 hnode)
  have hlength := h.nodes.length_eq
  have hentry := h.nodes.get (by omega) hi
  simp only [List.get_eq_getElem] at hentry
  generalize b.nodes.toList[i] = bound, t.nodes.toList[i] = compiled at hentry ⊢
  cases hentry with
  | split position finite left_lt right_lt =>
    exact ⟨Vocabulary.lt_size_of_indexOf? position, left_lt, right_lt⟩
  | leaf nonneg le_one => exact ⟨nonneg, le_one⟩

end BoundAs

end BoundTree

/-! ## Walks by names -/

/-- The value of an input by its name. -/
def Vocabulary.valueOf (v : Vocabulary) (values : Array α) (name : String) : α :=
  (v.get? values name).getD 0

namespace CompiledTree

/-- The move of a node, its test reading the value of the name that it tests. -/
def move? (t : CompiledTree α) (valueOf : String → α) (node : Nat) : Option (Move α) :=
  match t.nodes[node]? with
  | none => none
  | some (.leaf probability) => some (.stop probability)
  | some (.split name threshold left right) =>
    some (.goOn (if valueOf name ≤ threshold then left.toNat else right.toNat))

/-- The walk from the root reaches a leaf with the given probability, after however many steps. -/
def Reaches (t : CompiledTree α) (valueOf : String → α) (probability : α) : Prop :=
  ∃ others, Walk (t.move? valueOf) (0 :: others) probability

end CompiledTree

namespace BoundTree.BoundAs

variable {v : Vocabulary} {t : CompiledTree α} {b : BoundTree α}

/-- Positions and names make the same moves. -/
theorem move?_eq (h : BoundAs v t b) (values : Array α) :
    b.move? values = t.move? (v.valueOf values) := by
  funext node
  have hlength := h.nodes.length_eq
  simp only [Array.length_toList] at hlength
  unfold BoundTree.move? CompiledTree.move?
  rcases Nat.lt_or_ge node t.nodes.size with hnode | hnode
  · have hentry := h.nodes.get (by simpa using hnode) (by simpa [← hlength] using hnode)
    simp only [List.get_eq_getElem, Array.getElem_toList] at hentry
    rw [Array.getElem?_eq_getElem hnode, Array.getElem?_eq_getElem (hlength ▸ hnode)]
    generalize t.nodes[node] = compiled at hentry ⊢
    generalize b.nodes[node] = bound at hentry ⊢
    cases hentry with
    | leaf nonneg le_one => rfl
    | split position finite left_lt right_lt =>
      simp only [Vocabulary.valueOf, Vocabulary.get?, position, Option.bind_some,
        DecisionTree.valueAt, Array.getD_eq_getD_getElem?]
  · rw [Array.getElem?_eq_none hnode, Array.getElem?_eq_none (hlength ▸ hnode)]

/-- Evaluation answers what the walk by names reaches. -/
theorem evaluate_eq_some_iff (h : BoundAs v t b) {values : Array α} {p : α} :
    b.evaluate values = some p ↔ t.Reaches (v.valueOf values) p := by
  rw [BoundTree.evaluate_eq_some_iff, h.move?_eq values, CompiledTree.Reaches]

end BoundTree.BoundAs

end LeadScoring
