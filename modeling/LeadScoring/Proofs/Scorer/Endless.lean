import LeadScoring.Proofs.Scorer.Bound
import LeadScoring.Proofs.Tree.Simulation

/-!
# Walks that never stop

A walk over a bound table stops at a leaf or goes on for ever, since every node has a move.  The
number of nodes is therefore enough steps to tell the two apart: evaluation answers what the walk
reaches, and gives up exactly if the walk has no end.

Main results:

- Definition `Endless`: a walk without an end, over any rule for the next move.
- Theorem `Walk.not_endless`: a walk that stops is not endless.
- Theorem `endless_of_no_walk`: among nodes that have moves, a walk that does not stop is endless.
- Definition `BoundTree.checkedWalk?`: a walk whose reads are checked.
- Theorem `BoundTree.evaluate_decides_walk`: what evaluation of a bound table means.
-/

namespace LeadScoring

variable {α : Type}

/-! ## Endless walks -/

/-- A walk goes on from a node for ever. -/
def Endless (move? : Nat → Option (Move α)) (node : Nat) : Prop :=
  ∃ walk : Nat → Nat, walk 0 = node ∧ ∀ k, move? (walk k) = some (.goOn (walk (k + 1)))

/-- Behind its first move an endless walk is endless. -/
theorem Endless.next {move? : Nat → Option (Move α)} {node : Nat} (h : Endless move? node) :
    ∃ next, move? node = some (.goOn next) ∧ Endless move? next := by
  obtain ⟨walk, rfl, hmoves⟩ := h
  exact ⟨walk 1, hmoves 0, fun k => walk (k + 1), rfl, fun k => hmoves (k + 1)⟩

/-- A walk that stops is not endless. -/
theorem Walk.not_endless {move? : Nat → Option (Move α)} {node : Nat} {others : List Nat}
    {answer : α} (h : Walk move? (node :: others) answer) : ¬ Endless move? node := by
  obtain ⟨nodes, hnodes⟩ : ∃ nodes, nodes = node :: others := ⟨_, rfl⟩
  rw [← hnodes] at h
  induction h generalizing node others with
  | stop move =>
    cases hnodes
    intro hendless
    obtain ⟨next, hnext, -⟩ := hendless.next
    cases move.symm.trans hnext
  | goOn move rest ih =>
    cases hnodes
    intro hendless
    obtain ⟨next, hnext, hrest⟩ := hendless.next
    cases move.symm.trans hnext
    exact ih rfl hrest

section Moves

variable {move? : Nat → Option (Move α)} {count : Nat}

/-- The node after one move; a walk that has stopped stays where it is. -/
def nextNode (move? : Nat → Option (Move α)) (node : Nat) : Nat :=
  match move? node with
  | some (.goOn next) => next
  | _ => node

/-- Among nodes that have moves to one another, a walk that does not stop is endless. -/
theorem endless_of_no_walk
    (hmoves : ∀ node < count, (∃ answer, move? node = some (.stop answer)) ∨
      ∃ next < count, move? node = some (.goOn next))
    {node : Nat} (hnode : node < count) (hno : ∀ others answer, ¬ Walk move? (node :: others) answer) :
    Endless move? node := by
  -- No node that the walk comes to stops it, for then it would stop from the first node on.
  have hrun : ∀ k, (nextNode move?)^[k] node < count ∧
      ∀ others answer, ¬ Walk move? ((nextNode move?)^[k] node :: others) answer := by
    intro k
    induction k with
    | zero => exact ⟨hnode, hno⟩
    | succ k ih =>
      obtain ⟨hlt, hnone⟩ := ih
      rw [Function.iterate_succ_apply']
      generalize (nextNode move?)^[k] node = here at hlt hnone ⊢
      rcases hmoves here hlt with ⟨answer, hstop⟩ | ⟨next, hnext, hgo⟩
      · exact absurd (.stop hstop) (hnone [] answer)
      · rw [nextNode, hgo]
        exact ⟨hnext, fun others answer hwalk => hnone _ answer (.goOn hgo hwalk)⟩
  refine ⟨fun k => (nextNode move?)^[k] node, rfl, fun k => ?_⟩
  obtain ⟨hlt, hnone⟩ := hrun k
  dsimp only
  rw [Function.iterate_succ_apply']
  generalize (nextNode move?)^[k] node = here at hlt hnone ⊢
  rcases hmoves here hlt with ⟨answer, hstop⟩ | ⟨next, -, hgo⟩
  · exact absurd (.stop hstop) (hnone [] answer)
  · rw [nextNode, hgo]

end Moves

/-! ## Checked reads -/

namespace BoundTree

variable [Scalar α]

/-- A walk within a number of steps that reads only what is there.  Nothing is returned if a
position lies outside of the table or of the vector; otherwise the probability that is reached, if
the steps suffice. -/
def checkedWalk? (t : BoundTree α) (values : Array α) : Nat → Nat → Option (Option α)
  | 0, _ => some none
  | steps + 1, i =>
    match t.nodes[i]? with
    | none => none
    | some (.leaf probability) => some (some probability)
    | some (.split feature threshold left right) =>
      match values[feature]? with
      | none => none
      | some value => t.checkedWalk? values steps (if value ≤ threshold then left else right)

/-- Where nothing leads out of the table or of the vector, no read of a walk fails. -/
theorem InRange.checkedWalk?_eq {t : BoundTree α} {values : Array α} (h : t.InRange values.size)
    {steps i : Nat} (hi : i < t.nodes.size) :
    t.checkedWalk? values steps i = some (t.walk values steps i) := by
  induction steps generalizing i with
  | zero => rfl
  | succ steps ih =>
    have hentry : t.nodes[i]? = some t.nodes[i] := Array.getElem?_eq_getElem hi
    have hrange := h.nodes t.nodes[i] (Array.getElem_mem hi)
    rw [checkedWalk?, walk, hentry]
    cases hnode : t.nodes[i] with
    | leaf p => rfl
    | split feature threshold left right =>
      rw [hnode] at hrange
      obtain ⟨hfeature, hleft, hright⟩ := hrange
      have hvalue : values[feature]? = some (DecisionTree.valueAt values feature) := by
        rw [DecisionTree.valueAt, Array.getD_eq_getD_getElem?, Array.getElem?_eq_getElem hfeature,
          Option.getD_some]
      dsimp only
      rw [hvalue]
      dsimp only
      by_cases hle : DecisionTree.valueAt values feature ≤ threshold
      · rw [if_pos hle, if_pos hle, ih hleft]
      · rw [if_neg hle, if_neg hle, ih hright]

end BoundTree

/-! ## Evaluation -/

/-- The walk from the root of a table never comes to a leaf, its tests reading the values of the
names that they test. -/
def CompiledTree.NeverEnds [Scalar α] (t : CompiledTree α) (valueOf : String → α) : Prop :=
  Endless (t.move? valueOf) 0

namespace BoundTree

variable [Scalar α]

/-- A table that nothing leads out of is walked until a leaf comes or for ever. -/
theorem InRange.evaluate_eq_none_iff {width : Nat} {b : BoundTree α} (h : b.InRange width)
    {values : Array α} : b.evaluate values = none ↔ Endless (b.move? values) 0 := by
  constructor
  · intro hnone
    refine endless_of_no_walk ?_ h.nonempty ?_
    · intro node hnode
      rcases h.move?_cases values hnode with ⟨p, hstop, -⟩ | ⟨next, hgo, hnext⟩
      · exact Or.inl ⟨p, hstop⟩
      · exact Or.inr ⟨next, hnext, hgo⟩
    · intro others p hwalk
      have hsome := evaluate_eq_some_iff.2 ⟨others, hwalk⟩
      cases hnone.symm.trans hsome
  · intro hendless
    rw [Option.eq_none_iff_forall_ne_some]
    intro p hsome
    obtain ⟨others, hwalk⟩ := evaluate_eq_some_iff.1 hsome
    exact hwalk.not_endless hendless

/-- Evaluation of a bound table answers with a probability exactly if the walk from the root, which
no bound cuts off, reaches a leaf with this probability; it gives up, so that the vector has no score
for this tree, exactly if the walk never ends; and all its reads are inside the table and the
vector. -/
theorem evaluate_decides_walk {v : Vocabulary} {number : Nat} {c : CompiledTree α}
    {b : BoundTree α} (h : bind v number c = .ok b) {values : Array α}
    (hvalues : values.size = v.size) :
    (∀ p, b.evaluate values = some p ↔ c.Reaches (v.valueOf values) p) ∧
      (b.evaluate values = none ↔ c.NeverEnds (v.valueOf values)) ∧
      (∀ trees, c.NeverEnds (v.valueOf values) →
        Scorer.evaluateTrees values number (b :: trees) = .error (.endlessWalk number)) ∧
      b.checkedWalk? values b.nodes.size 0 = some (b.evaluate values) := by
  have hbound := bind_eq_ok_iff.1 h
  have hrange : b.InRange values.size := hvalues ▸ hbound.inRange
  have hends : b.evaluate values = none ↔ c.NeverEnds (v.valueOf values) := by
    rw [hrange.evaluate_eq_none_iff, hbound.move?_eq values, CompiledTree.NeverEnds]
  refine ⟨fun p => hbound.evaluate_eq_some_iff, hends, fun trees hendless => ?_,
    hrange.checkedWalk?_eq hrange.nonempty⟩
  rw [Scorer.evaluateTrees, hends.2 hendless]

/-- A table whose root is its own right child, so that it loops for some vectors, and whose last leaf
is only reached after as many steps as there are nodes. -/
def halfLoop : CompiledTree Float :=
  ⟨#[.split "Page Views" 5.5 1 0, .split "Page Views" 2.5 2 2, .leaf 0.25]⟩

/-- The same table with positions in place of names. -/
def boundHalfLoop : BoundTree Float :=
  ⟨#[.split 0 5.5 1 0, .split 0 2.5 2 2, .leaf 0.25]⟩

/-- A tree that some vectors leave and on which others go round for ever. -/
theorem evaluate_decides_halfLoop :
    bind FittedTree.singleName 3 halfLoop = .ok boundHalfLoop ∧
      (∀ x : Float, #[x].size = FittedTree.singleName.size) ∧
      halfLoop.Reaches (FittedTree.singleName.valueOf #[1.0]) 0.25 ∧
      halfLoop.NeverEnds (FittedTree.singleName.valueOf #[0.0 / 0.0]) ∧
      Scorer.evaluateTrees #[0.0 / 0.0] 3 [boundHalfLoop] = .error (.endlessWalk 3) ∧
      boundHalfLoop.checkedWalk? #[0.0 / 0.0] 3 0 = some none := by
  have hbind : bind FittedTree.singleName 3 halfLoop = .ok boundHalfLoop := by rfl
  have hsize : ∀ x : Float, #[x].size = FittedTree.singleName.size := fun _ => rfl
  have hanswer : boundHalfLoop.evaluate #[1.0] = some 0.25 := by decide +kernel
  have hnone : boundHalfLoop.evaluate #[0.0 / 0.0] = none := by decide +kernel
  obtain ⟨hreaches, -, -, -⟩ := evaluate_decides_walk hbind (hsize 1.0)
  obtain ⟨-, hends, herror, hchecked⟩ := evaluate_decides_walk hbind (hsize (0.0 / 0.0))
  rw [hnone] at hchecked
  have hendless := hends.1 hnone
  exact ⟨hbind, hsize, (hreaches 0.25).1 hanswer, hendless, herror [] hendless, hchecked⟩

end BoundTree

end LeadScoring
