import LeadScoring.Proofs.Outcome
import LeadScoring.Scorer
import Mathlib.Data.List.Nodup
import Mathlib.Data.List.Perm.Subperm

/-!
# Walks over node tables

A walk over a table of nodes goes on from a split to one of its children and stops at a leaf.
Nothing in a table forces a walk to stop, so evaluation gives up after as many steps as there are
nodes.  This module states walks without any bound and proves that the bound never cuts one off that
would have stopped: a walk with a node twice can be shortened, and a walk without has no more nodes
than the table.

Main results:

- Definition `Walk`: the nodes of a walk that stops, over any rule for the next move.
- Theorem `Walk.exists_nodup`: where a walk stops, one without repetitions stops with the same
  answer.
- Definition `BoundNode.InRange`, `BoundTree.InRange`: no entry leads out of the table or the
  vector.
- Theorem `BoundTree.evaluate_eq_some_iff`: evaluation answers exactly if the walk stops.
-/

namespace LeadScoring

variable {α : Type}

/-! ## Walks that stop -/

/-- What a node makes of a walk: it stops with an answer, or goes on at another node. -/
inductive Move (α : Type) where
  | stop (answer : α)
  | goOn (node : Nat)

/-- The nodes of a walk in their order, the last of which stops it with an answer. -/
inductive Walk (move? : Nat → Option (Move α)) : List Nat → α → Prop
  | stop {node : Nat} {answer : α} (move : move? node = some (.stop answer)) :
      Walk move? [node] answer
  | goOn {node next : Nat} {others : List Nat} {answer : α} (move : move? node = some (.goOn next))
      (rest : Walk move? (next :: others) answer) : Walk move? (node :: next :: others) answer

namespace Walk

variable {move? : Nat → Option (Move α)} {node : Nat} {nodes others : List Nat} {answer : α}

/-- What is left of a walk from one of its nodes on is a walk with the same answer. -/
theorem from_mem (h : Walk move? nodes answer) (hnode : node ∈ nodes) :
    ∃ others, Walk move? (node :: others) answer ∧ (node :: others).Sublist nodes := by
  induction h with
  | stop move =>
    rw [List.mem_singleton] at hnode
    exact ⟨[], hnode ▸ .stop move, hnode ▸ List.Sublist.refl _⟩
  | @goOn first next others answer move rest ih =>
    rcases List.mem_cons.1 hnode with rfl | hrest
    · exact ⟨next :: others, .goOn move rest, List.Sublist.refl _⟩
    · obtain ⟨left, hwalk, hleft⟩ := ih hrest
      exact ⟨left, hwalk, hleft.cons first⟩

/-- Where a walk stops, one that visits no node twice stops with the same answer. -/
theorem exists_nodup (h : Walk move? (node :: others) answer) :
    ∃ others, Walk move? (node :: others) answer ∧ (node :: others).Nodup := by
  obtain ⟨nodes, hnodes⟩ : ∃ nodes, nodes = node :: others := ⟨_, rfl⟩
  rw [← hnodes] at h
  induction h generalizing node others with
  | @stop first answer move =>
    cases hnodes
    exact ⟨[], .stop move, by simp⟩
  | @goOn first next others answer move rest ih =>
    cases hnodes
    obtain ⟨others, hwalk, hnodup⟩ := ih rfl
    by_cases hrepeat : first ∈ next :: others
    · -- The walk comes back to its first node, so all before that return can be left out.
      obtain ⟨left, hleft, hsub⟩ := hwalk.from_mem hrepeat
      exact ⟨left, hleft, hnodup.sublist hsub⟩
    · exact ⟨next :: others, .goOn move hwalk, List.nodup_cons.2 ⟨hrepeat, hnodup⟩⟩

/-- A walk only visits nodes that have a move. -/
theorem isSome_of_mem (h : Walk move? nodes answer) (hnode : node ∈ nodes) :
    ∃ m, move? node = some m := by
  induction h with
  | stop move =>
    rw [List.mem_singleton] at hnode
    exact ⟨_, hnode ▸ move⟩
  | goOn move rest ih =>
    rcases List.mem_cons.1 hnode with rfl | hrest
    · exact ⟨_, move⟩
    · exact ih hrest

/-- The answer of a walk is that of the node at which it stops. -/
theorem exists_stop (h : Walk move? nodes answer) : ∃ node, move? node = some (.stop answer) := by
  induction h with
  | stop move => exact ⟨_, move⟩
  | goOn _ _ ih => exact ih

end Walk

/-! ## Moves of tables -/

namespace BoundTree

variable [Scalar α]

/-- The move of a node for a vector. -/
def move? (t : BoundTree α) (values : Array α) (node : Nat) : Option (Move α) :=
  match t.nodes[node]? with
  | none => none
  | some (.leaf probability) => some (.stop probability)
  | some (.split feature threshold left right) =>
    some (.goOn (if DecisionTree.valueAt values feature ≤ threshold then left else right))

theorem lt_size_of_move? {t : BoundTree α} {values : Array α} {node : Nat} {m : Move α}
    (h : t.move? values node = some m) : node < t.nodes.size := by
  unfold move? at h
  split at h
  · cases h
  · exact (Array.getElem?_eq_some_iff.1 ‹_›).1
  · exact (Array.getElem?_eq_some_iff.1 ‹_›).1

/-- A bounded walk makes the move of its node. -/
theorem walk_succ (t : BoundTree α) (values : Array α) (steps node : Nat) :
    t.walk values (steps + 1) node =
      match t.move? values node with
      | none => none
      | some (.stop probability) => some probability
      | some (.goOn next) => t.walk values steps next := by
  rw [walk, move?]
  cases t.nodes[node]? with
  | none => rfl
  | some entry =>
    cases entry with
    | leaf probability => rfl
    | split feature threshold left right =>
      by_cases hle : DecisionTree.valueAt values feature ≤ threshold <;> simp [hle]

/-- A bounded walk that answers is a walk that stops. -/
theorem exists_walk_of_walk {t : BoundTree α} {values : Array α} {steps node : Nat} {p : α}
    (h : t.walk values steps node = some p) :
    ∃ others, Walk (t.move? values) (node :: others) p := by
  induction steps generalizing node with
  | zero => cases h
  | succ steps ih =>
    rw [walk_succ] at h
    split at h
    · cases h
    · rename_i probability hmove
      cases h
      exact ⟨[], .stop hmove⟩
    · rename_i next hmove
      obtain ⟨others, hwalk⟩ := ih h
      exact ⟨next :: others, .goOn hmove hwalk⟩

/-- A walk that stops is a bounded walk for every bound that it keeps. -/
theorem walk_of_walk {t : BoundTree α} {values : Array α} {node : Nat} {others : List Nat} {p : α}
    (h : Walk (t.move? values) (node :: others) p) {steps : Nat} (hsteps : others.length < steps) :
    t.walk values steps node = some p := by
  induction steps generalizing node others with
  | zero => omega
  | succ steps ih =>
    rw [walk_succ]
    cases h with
    | stop move => rw [move]
    | goOn move rest =>
      rw [move]
      rw [List.length_cons] at hsteps
      exact ih rest (by omega)

/-- Evaluation answers exactly if the walk from the root stops, however many steps that takes. -/
theorem evaluate_eq_some_iff {t : BoundTree α} {values : Array α} {p : α} :
    t.evaluate values = some p ↔ ∃ others, Walk (t.move? values) (0 :: others) p := by
  constructor
  · exact exists_walk_of_walk
  · rintro ⟨others, hwalk⟩
    obtain ⟨others, hwalk, hnodup⟩ := hwalk.exists_nodup
    refine walk_of_walk hwalk ?_
    have hsub : 0 :: others ⊆ List.range t.nodes.size := by
      intro node hnode
      obtain ⟨m, hmove⟩ := hwalk.isSome_of_mem hnode
      exact List.mem_range.2 (lt_size_of_move? hmove)
    have hlength := (hnodup.subperm hsub).length_le
    rwa [List.length_cons, List.length_range] at hlength

end BoundTree

/-! ## Tables that nothing leads out of -/

/-- The entries of a node stay inside a vector of `width` values and a table of `count` nodes, and a
leaf has a probability. -/
def BoundNode.InRange [Scalar α] (width count : Nat) : BoundNode α → Prop
  | .split feature _ left right => feature < width ∧ left < count ∧ right < count
  | .leaf probability => 0 ≤ probability ∧ probability ≤ 1

/-- A walk over the table starts at a node, and no entry of it leads out of the table or out of a
vector of `width` values. -/
structure BoundTree.InRange [Scalar α] (width : Nat) (t : BoundTree α) : Prop where
  nonempty : 0 < t.nodes.size
  nodes : ∀ node ∈ t.nodes, node.InRange width t.nodes.size

/-- In such a table every node that a walk can come to has a move, and answers are probabilities. -/
theorem BoundTree.InRange.move?_cases [Scalar α] {width : Nat} {t : BoundTree α}
    (h : t.InRange width) (values : Array α) {node : Nat} (hnode : node < t.nodes.size) :
    (∃ p, t.move? values node = some (.stop p) ∧ 0 ≤ p ∧ p ≤ 1) ∨
      ∃ next, t.move? values node = some (.goOn next) ∧ next < t.nodes.size := by
  have hentry : t.nodes[node]? = some t.nodes[node] := Array.getElem?_eq_getElem hnode
  have hrange := h.nodes t.nodes[node] (Array.getElem_mem hnode)
  rw [BoundTree.move?, hentry]
  cases hcase : t.nodes[node] with
  | leaf p =>
    rw [hcase] at hrange
    exact Or.inl ⟨p, rfl, hrange⟩
  | split feature threshold left right =>
    rw [hcase] at hrange
    refine Or.inr ⟨_, rfl, ?_⟩
    split
    · exact hrange.2.1
    · exact hrange.2.2

/-- Such a table answers with a probability. -/
theorem BoundTree.InRange.mem_unit_of_evaluate [Scalar α] {width : Nat} {t : BoundTree α}
    (h : t.InRange width) {values : Array α} {p : α} (hp : t.evaluate values = some p) :
    0 ≤ p ∧ p ≤ 1 := by
  obtain ⟨others, hwalk⟩ := BoundTree.evaluate_eq_some_iff.1 hp
  obtain ⟨node, hstop⟩ := hwalk.exists_stop
  rcases h.move?_cases values (BoundTree.lt_size_of_move? hstop) with
    ⟨q, hq, hunit⟩ | ⟨next, hnext, -⟩
  · cases hstop.symm.trans hq
    exact hunit
  · cases hstop.symm.trans hnext

end LeadScoring
