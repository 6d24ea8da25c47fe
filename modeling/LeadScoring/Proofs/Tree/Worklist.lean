import LeadScoring.Proofs.Tree.Reachable
import LeadScoring.Proofs.Tree.Simulation

/-!
# Compiling with a worklist

Compiling can be run with an explicit list of the nodes that are still to be visited: the node on
top is checked, gets the next slot of the table, and that slot is written into the split above it.
This module defines that run and proves that it ends, that it visits no node twice, and that it
gives what unfolding and laying out the tree gives, whatever the node arrays hold.

Main results:

- Definition `Worklist.run`: the run, with the nodes that it visits.
- Theorem `Worklist.exists_run`: a run visits reachable nodes, each at most once, and ends.
- Theorems `Worklist.run_of_unfoldFrom_eq_ok`, `Worklist.exists_run_of_unfoldFrom_eq_error`: a run
  does to the node on top what unfolding does to the tree below it.
- Theorem `FittedTree.compile_decides_finite_trees`: which node arrays are compiled.
-/

namespace LeadScoring

/-- The two children of a split. -/
inductive Side where
  | left
  | right

/-- A split with one child entry replaced. -/
def CompiledNode.setChild {α : Type} (side : Side) (slot : UInt32) : CompiledNode α → CompiledNode α
  | .leaf probability => .leaf probability
  | .split feature threshold left right =>
    match side with
    | .left => .split feature threshold slot right
    | .right => .split feature threshold left slot

/-- A node to visit, with the slot of the split above it and the side on which it hangs there. -/
structure Task where
  node : Nat
  parent : Option (Nat × Side)

/-- A run in progress: the nodes to visit, the visited ones, and the table so far. -/
structure Worklist (α : Type) where
  pending : List Task
  visited : List Nat
  table : List (CompiledNode α)

namespace SoundNode

variable {α : Type} [Scalar α]

/-- The node in the table before the slots of its children are known. -/
def compiled (v : Vocabulary) : SoundNode α → CompiledNode α
  | leaf counts => .leaf counts.rate
  | split feature threshold _ _ _ => .split ((v.name? feature).getD "") threshold 0 0

omit [Scalar α] in
/-- The children to visit after a node that has the given slot, the left one first. -/
def tasks (slot : Nat) : SoundNode α → List Task
  | leaf _ => []
  | split _ _ left right _ => [⟨left, some (slot, .left)⟩, ⟨right, some (slot, .right)⟩]

end SoundNode

namespace Worklist

variable {α : Type}

/-- The table with a slot written into the split above it. -/
def link (parent : Option (Nat × Side)) (slot : Nat) (table : List (CompiledNode α)) :
    List (CompiledNode α) :=
  match parent with
  | none => table
  | some (above, side) => table.modify above (CompiledNode.setChild side (UInt32.ofNat slot))

/-- The root is to be visited and nothing has been done. -/
def start : Worklist α :=
  ⟨[⟨0, none⟩], [], []⟩

/-- A run of at most the given number of visits: the table or the first defect, and the visited
nodes, the last one first.  Nothing is returned if nodes are left to visit. -/
def run [Scalar α] (t : FittedTree α) (v : Vocabulary) :
    Nat → Worklist α → Option (Except TreeDefect (List (CompiledNode α)) × List Nat)
  | _, ⟨[], visited, table⟩ => some (.ok table, visited)
  | 0, _ => none
  | steps + 1, ⟨task :: rest, visited, table⟩ =>
    if visited.contains task.node then some (.error (.cycle task.node), visited)
    else
      match t.inspect v.size task.node with
      | .error defect => some (.error defect, task.node :: visited)
      | .ok node =>
        run t v steps ⟨node.tasks table.length ++ rest, task.node :: visited,
          link task.parent table.length table ++ [node.compiled v]⟩

/-! ## Tables -/

@[simp]
theorem length_link (parent : Option (Nat × Side)) (slot : Nat) (table : List (CompiledNode α)) :
    (link parent slot table).length = table.length := by
  cases parent <;> simp [link]

/-- A slot is written into the split above it, wherever that stands. -/
theorem link_append_cons (side : Side) (slot : Nat) (before after : List (CompiledNode α))
    (node : CompiledNode α) :
    link (some (before.length, side)) slot (before ++ node :: after) =
      before ++ node.setChild side (UInt32.ofNat slot) :: after := by
  induction before with
  | nil => rfl
  | cons first before ih => simpa [link] using ih

/-! ## Steps -/

variable [Scalar α] {t : FittedTree α} {v : Vocabulary}

section Steps

variable {task : Task} {rest : List Task} {visited : List Nat} {table : List (CompiledNode α)}
  {steps : Nat}

@[simp]
theorem run_nil : run t v steps ⟨[], visited, table⟩ = some (.ok table, visited) := by
  cases steps <;> rfl

/-- A run stops at a node that it has visited before. -/
theorem run_revisit (hseen : task.node ∈ visited) :
    run t v (steps + 1) ⟨task :: rest, visited, table⟩ =
      some (.error (.cycle task.node), visited) := by
  rw [run, if_pos (by simpa using hseen)]

/-- A run stops at a new node that fails its checks. -/
theorem run_defect (hnew : task.node ∉ visited) {defect : TreeDefect}
    (hinspect : t.inspect v.size task.node = .error defect) :
    run t v (steps + 1) ⟨task :: rest, visited, table⟩ =
      some (.error defect, task.node :: visited) := by
  rw [run, if_neg (by simpa using hnew), hinspect]

/-- A new node that passes its checks is added to the table, and its children are visited next. -/
theorem run_visit (hnew : task.node ∉ visited) {node : SoundNode α}
    (hinspect : t.inspect v.size task.node = .ok node) :
    run t v (steps + 1) ⟨task :: rest, visited, table⟩ =
      run t v steps ⟨node.tasks table.length ++ rest, task.node :: visited,
        link task.parent table.length table ++ [node.compiled v]⟩ := by
  rw [run, if_neg (by simpa using hnew), hinspect]

end Steps

/-! ## Runs end -/

/-- More steps change nothing about a run that has ended. -/
theorem run_mono {steps : Nat} {w : Worklist α}
    {result : Except TreeDefect (List (CompiledNode α)) × List Nat}
    (h : run t v steps w = some result) (more : Nat) : run t v (steps + more) w = some result := by
  induction steps generalizing w with
  | zero =>
    rcases w with ⟨_ | ⟨task, rest⟩, visited, table⟩
    · rwa [run_nil] at h ⊢
    · cases h
  | succ steps ih =>
    rcases w with ⟨_ | ⟨task, rest⟩, visited, table⟩
    · rwa [run_nil] at h ⊢
    · rw [Nat.add_right_comm]
      by_cases hseen : task.node ∈ visited
      · rwa [run_revisit hseen] at h ⊢
      · cases hinspect : t.inspect v.size task.node with
        | error defect => rwa [run_defect hseen hinspect] at h ⊢
        | ok node =>
          rw [run_visit hseen hinspect] at h ⊢
          exact ih h

/-- Two runs from one worklist that both end agree. -/
theorem run_unique {steps steps' : Nat} {w : Worklist α}
    {result result' : Except TreeDefect (List (CompiledNode α)) × List Nat}
    (h : run t v steps w = some result) (h' : run t v steps' w = some result') :
    result = result' := by
  have hlong := run_mono h steps'
  rw [Nat.add_comm, run_mono h' steps] at hlong
  exact (Option.some.inj hlong).symm

/-- What every visit keeps: only reachable nodes are met, and those visited are distinct. -/
structure Legal (t : FittedTree α) (w : Worklist α) : Prop where
  pending : ∀ task ∈ w.pending, t.Reaches task.node
  visited : ∀ i ∈ w.visited, t.Reaches i
  nodup : w.visited.Nodup

omit [Scalar α] in
theorem legal_start : Legal t start where
  pending := by simpa [start] using FittedTree.Reaches.root
  visited := by simp [start]
  nodup := List.nodup_nil

omit [Scalar α] in
/-- Legal worklists have visited no more nodes than the arrays have. -/
theorem Legal.length_visited_le {w : Worklist α} (h : Legal t w) (hpos : 0 < t.nodeCount) :
    w.visited.length ≤ t.nodeCount :=
  FittedTree.length_le_of_nodup_of_lt h.nodup fun i hi => (h.visited i hi).lt_nodeCount hpos

/-- Visiting a new node leaves a legal worklist legal. -/
theorem Legal.visit {task : Task} {rest : List Task} {visited : List Nat}
    {table table' : List (CompiledNode α)} {node : SoundNode α} {slot : Nat}
    (h : Legal t ⟨task :: rest, visited, table⟩) (hnew : task.node ∉ visited)
    (hinspect : t.inspect v.size task.node = .ok node) :
    Legal t ⟨node.tasks slot ++ rest, task.node :: visited, table'⟩ where
  pending := by
    intro other hother
    rcases List.mem_append.1 hother with hother | hother
    · cases node with
      | leaf counts => cases hother
      | split feature threshold left right counts =>
        obtain ⟨hleft, hright⟩ := (h.pending task List.mem_cons_self).children hinspect
        simp only [SoundNode.tasks, List.mem_cons, List.not_mem_nil, or_false] at hother
        rcases hother with rfl | rfl
        · exact hleft
        · exact hright
    · exact h.pending other (List.mem_cons_of_mem task hother)
  visited := List.forall_mem_cons.2 ⟨h.pending task List.mem_cons_self, h.visited⟩
  nodup := List.nodup_cons.2 ⟨hnew, h.nodup⟩

/-- A run from a legal worklist ends, at the latest when every node has been visited.  All nodes
that it visits are reachable, and none is visited twice. -/
theorem exists_run (hpos : 0 < t.nodeCount) {steps : Nat} {w : Worklist α} (h : Legal t w)
    (hsteps : t.nodeCount < steps + w.visited.length) :
    ∃ result visited, run t v steps w = some (result, visited) ∧ visited.Nodup ∧
      ∀ i ∈ visited, t.Reaches i := by
  induction steps generalizing w with
  | zero =>
    have hle := h.length_visited_le hpos
    omega
  | succ steps ih =>
    rcases w with ⟨_ | ⟨task, rest⟩, visited, table⟩
    · exact ⟨_, _, run_nil, h.nodup, h.visited⟩
    · by_cases hseen : task.node ∈ visited
      · exact ⟨_, _, run_revisit hseen, h.nodup, h.visited⟩
      · cases hinspect : t.inspect v.size task.node with
        | error defect =>
          exact ⟨_, _, run_defect hseen hinspect, List.nodup_cons.2 ⟨hseen, h.nodup⟩,
            List.forall_mem_cons.2 ⟨h.pending task List.mem_cons_self, h.visited⟩⟩
        | ok node =>
          rw [run_visit hseen hinspect]
          apply ih (h.visit hseen hinspect)
          simp only [List.length_cons] at hsteps ⊢
          omega

/-! ## Runs follow unfolding -/

/-- Where unfolding gives the tree below a node, a run that has the node on top adds the table of
that tree and goes on with the other nodes. -/
theorem run_of_unfoldFrom_eq_ok {bound node : Nat} {seen after : List Nat} {tree : DecisionTree α}
    (h : t.unfoldFrom v.size bound seen node = .ok (tree, after)) (steps : Nat)
    (parent : Option (Nat × Side)) (rest : List Task) (table : List (CompiledNode α)) :
    run t v (tree.size + steps) ⟨⟨node, parent⟩ :: rest, seen, table⟩ =
      run t v steps ⟨rest, after, link parent table.length table ++
        CompiledTree.nodesOf (fun i => (v.name? i).getD "") table.length tree⟩ := by
  induction bound generalizing node seen after tree steps parent rest table with
  | zero => cases h
  | succ bound ih =>
    obtain ⟨hnew, ⟨counts, hinspect, rfl, rfl⟩ | ⟨feature, threshold, left, right, counts, leftTree,
      rightTree, between, hinspect, hleft, hright, rfl⟩⟩ := FittedTree.unfoldFrom_ok_cases h
    · rw [DecisionTree.size, Nat.add_comm 1, run_visit hnew hinspect]
      rfl
    · have hsteps : (DecisionTree.split feature threshold counts leftTree rightTree).size + steps =
          leftTree.size + (rightTree.size + steps) + 1 := by
        simp only [DecisionTree.size]
        omega
      rw [hsteps, run_visit hnew hinspect]
      simp only [SoundNode.tasks, SoundNode.compiled, List.cons_append, List.nil_append]
      generalize hlinked : link parent table.length table = linked
      have hlength : linked.length = table.length := by rw [← hlinked, length_link]
      -- The left part is linked to the split when it is met, the right part after it.
      rw [ih hleft, ih hright]
      simp only [List.length_append, List.length_cons, List.length_nil,
        CompiledTree.length_nodesOf, CompiledTree.nodesOf, ← hlength, link_append_cons,
        List.append_assoc, List.cons_append, List.nil_append, CompiledNode.setChild,
        Nat.zero_add, Nat.add_comm leftTree.size 1]
      rw [← Nat.add_assoc]

/-- The nodes met after unfolding a part are distinct and inside the arrays if those met before
are. -/
theorem met_after_unfoldFrom {width bound node : Nat} {seen after : List Nat}
    {tree : DecisionTree α} (h : t.unfoldFrom width bound seen node = .ok (tree, after))
    (hnodup : seen.Nodup) (hlt : ∀ i ∈ seen, i < t.nodeCount) :
    after.Nodup ∧ (∀ i ∈ after, i < t.nodeCount) ∧ seen.length ≤ after.length := by
  obtain ⟨nodes, hdescribes, -, hdistinct, hnew, rfl⟩ := FittedTree.describes_of_unfoldFrom h
  refine ⟨?_, ?_, by simp⟩
  · rw [List.nodup_append, List.nodup_reverse]
    refine ⟨hdistinct, hnodup, ?_⟩
    rintro i hi j hj rfl
    exact hnew i (List.mem_reverse.1 hi) hj
  · intro i hi
    rw [List.mem_append, List.mem_reverse] at hi
    rcases hi with hi | hi
    · obtain ⟨entry, hentry⟩ := hdescribes.exists_entry hi
      exact FittedTree.lt_nodeCount_of_node? hentry
    · exact hlt i hi

/-- Where unfolding reports a defect below a node, so does a run that has the node on top. -/
theorem exists_run_of_unfoldFrom_eq_error {bound node : Nat} {seen : List Nat} {defect : TreeDefect}
    (hnodup : seen.Nodup) (hlt : ∀ i ∈ seen, i < t.nodeCount) (hnode : node < t.nodeCount)
    (hbound : t.nodeCount ≤ bound + seen.length)
    (h : t.unfoldFrom v.size bound seen node = .error defect) :
    ∃ steps visited, ∀ parent rest table, run t v steps ⟨⟨node, parent⟩ :: rest, seen, table⟩ =
      some (.error defect, visited) := by
  induction bound generalizing node seen with
  | zero =>
    cases h
    have hmem : node ∈ seen := by
      by_contra hnew
      have hle := FittedTree.length_le_of_nodup_of_lt (List.nodup_cons.2 ⟨hnew, hnodup⟩)
        (List.forall_mem_cons.2 ⟨hnode, hlt⟩)
      simp only [List.length_cons] at hle
      omega
    exact ⟨1, seen, fun _ _ _ => run_revisit hmem⟩
  | succ bound ih =>
    obtain ⟨hmem, rfl⟩ | ⟨hnew, hinspect | ⟨feature, threshold, left, right, counts, hinspect,
      hparts⟩⟩ := FittedTree.unfoldFrom_error_cases h
    · exact ⟨1, seen, fun _ _ _ => run_revisit hmem⟩
    · exact ⟨1, node :: seen, fun _ _ _ => run_defect hnew hinspect⟩
    · obtain ⟨_, l, r, -, hl, hr, rfl, rfl⟩ := FittedTree.entry_of_inspect hinspect
      have hnodup' : (node :: seen).Nodup := List.nodup_cons.2 ⟨hnew, hnodup⟩
      have hlt' : ∀ i ∈ node :: seen, i < t.nodeCount := List.forall_mem_cons.2 ⟨hnode, hlt⟩
      have hbound' : t.nodeCount ≤ bound + (node :: seen).length := by
        rw [List.length_cons]
        omega
      rcases hparts with hleft | ⟨leftTree, between, hleft, hright⟩
      · obtain ⟨steps, visited, hrun⟩ := ih hnodup' hlt' (by omega) hbound' hleft
        refine ⟨steps + 1, visited, fun parent rest table => ?_⟩
        rw [run_visit hnew hinspect]
        exact hrun _ _ _
      · obtain ⟨hbetween, hbetween_lt, hmore⟩ := met_after_unfoldFrom hleft hnodup' hlt'
        obtain ⟨steps, visited, hrun⟩ := ih hbetween hbetween_lt (by omega) (by omega) hright
        refine ⟨leftTree.size + steps + 1, visited, fun parent rest table => ?_⟩
        rw [run_visit hnew hinspect]
        simp only [SoundNode.tasks, List.cons_append, List.nil_append]
        rw [run_of_unfoldFrom_eq_ok hleft]
        exact hrun _ _ _

end Worklist

/-! ## Whole node arrays -/

namespace FittedTree

variable {α : Type} [Scalar α]

/-- Compiling with a worklist: the compiled tree or the first defect, with the nodes that were
visited.  Each step visits one node, so the number of nodes bounds the steps. -/
def compileByWorklist (t : FittedTree α) (v : Vocabulary) :
    Option (Except TreeDefect (CompiledTree α) × List Nat) :=
  match t.shapeDefect? with
  | some defect => some (.error defect, [])
  | none =>
    (Worklist.run t v (t.nodeCount + 1) .start).map fun (result, visited) =>
      (result.map fun table => ⟨table.toArray⟩, visited)

/-- Compiling with a worklist gives what compiling gives, and visits reachable nodes only, none of
them twice. -/
theorem exists_compileByWorklist (t : FittedTree α) (v : Vocabulary) :
    ∃ visited, t.compileByWorklist v = some (t.compile v, visited) ∧ visited.Nodup ∧
      ∀ i ∈ visited, t.Reaches i := by
  unfold compileByWorklist compile unfold
  cases hshape : t.shapeDefect? with
  | some defect => exact ⟨[], rfl, List.nodup_nil, by simp⟩
  | none =>
    have hpos : 0 < t.nodeCount := (shapeDefect?_eq_none_iff.1 hshape).nonempty
    obtain ⟨result, visited, hrun, hnodup, hreach⟩ :=
      Worklist.exists_run (v := v) hpos Worklist.legal_start (Nat.lt_succ_self t.nodeCount)
    refine ⟨visited, ?_, hnodup, hreach⟩
    rw [hrun]
    cases hunfold : t.unfoldFrom v.size (t.nodeCount + 1) [] 0 with
    | ok part =>
      obtain ⟨tree, after⟩ := part
      have hsame := Worklist.run_of_unfoldFrom_eq_ok hunfold 0 none [] []
      rw [Worklist.run_nil] at hsame
      cases Worklist.run_unique hrun hsame
      rfl
    | error defect =>
      obtain ⟨steps, last, hsame⟩ := Worklist.exists_run_of_unfoldFrom_eq_error List.nodup_nil
        (by simp) hpos (by simp) hunfold
      cases Worklist.run_unique hrun (hsame none [] [])
      rfl

/-- Node arrays compile exactly if all five have the same length, which is not zero, and below node
zero they hold a finite tree of distinct nodes whose splits test listed features against finite
thresholds and whose leaves have finite counts that are not negative.  Compiling them with a
worklist ends after at most one step more than there are nodes, whatever they hold, and visits
each node at most once.  Entries at nodes that are not reachable play no part. -/
theorem compile_decides_finite_trees (t : FittedTree α) (v : Vocabulary) :
    (∃ visited, t.compileByWorklist v = some (t.compile v, visited) ∧ visited.Nodup ∧
        ∀ i ∈ visited, t.Reaches i) ∧
      ((∃ c, t.compile v = .ok c) ↔
        t.OneLength ∧ ∃ tree nodes, t.Describes 0 tree nodes ∧ nodes.Nodup ∧
          tree.WellFormed v.size) ∧
      ∀ t' : FittedTree α, t.SameLengths t' → (∀ i, t.Reaches i → t'.node? i = t.node? i) →
        t'.compile v = t.compile v := by
  refine ⟨t.exists_compileByWorklist v, ?_,
    fun t' hlengths hentry => compile_congr hlengths hentry v⟩
  simp only [compile_eq_ok_iff, unfold_eq_ok_iff, shapeDefect?_eq_none_iff]
  constructor
  · rintro ⟨_, tree, ⟨hlength, hformed, nodes, hdescribes, hnodup⟩, -⟩
    exact ⟨hlength, tree, nodes, hdescribes, hnodup, hformed⟩
  · rintro ⟨hlength, tree, nodes, hdescribes, hnodup, hformed⟩
    exact ⟨_, tree, ⟨hlength, hformed, nodes, hdescribes, hnodup⟩, rfl⟩

/-- Arrays whose root is its own right child, with the entries of a third node that nothing leads
to. -/
def loopedStump (feature : Int) (threshold : Float) (child : Int) : FittedTree Float where
  feature := #[0, -2, feature]
  threshold := #[0.5, -2.0, threshold]
  childrenLeft := #[1, -1, child]
  childrenRight := #[0, -1, child]
  counts := #[⟨2.0, 2.0⟩, ⟨2.0, 0.0⟩, ⟨0.0, 2.0⟩]

/-- Nothing leads to the last node. -/
theorem le_one_of_reaches_loopedStump {feature child : Int} {threshold : Float} {i : Nat}
    (h : (loopedStump feature threshold child).Reaches i) : i ≤ 1 := by
  have hroot : (loopedStump feature threshold child).node? 0 =
      some (.split 0 0.5 1 0 ⟨2.0, 2.0⟩) := rfl
  have hleaf : (loopedStump feature threshold child).node? 1 = some (.leaf ⟨2.0, 0.0⟩) := rfl
  induction h with
  | root => exact Nat.zero_le 1
  | @left node _ _ _ _ _ above entry inside ih =>
    rcases Nat.le_one_iff_eq_zero_or_eq_one.1 ih with rfl | rfl
    · cases hroot.symm.trans entry
      exact le_refl 1
    · cases hleaf.symm.trans entry
  | @right node _ _ _ _ _ above entry inside ih =>
    rcases Nat.le_one_iff_eq_zero_or_eq_one.1 ih with rfl | rfl
    · cases hroot.symm.trans entry
      exact Nat.zero_le 1
    · cases hleaf.symm.trans entry

section LoopedStump

variable (feature feature' child child' : Int) (threshold threshold' : Float)

theorem sameLengths_loopedStump :
    (loopedStump feature threshold child).SameLengths (loopedStump feature' threshold' child') :=
  ⟨rfl, rfl, rfl, rfl, rfl⟩

/-- The reachable entries do not depend on the one that nothing leads to. -/
theorem node?_loopedStump_of_reaches (i : Nat)
    (h : (loopedStump feature threshold child).Reaches i) :
    (loopedStump feature' threshold' child').node? i =
      (loopedStump feature threshold child).node? i := by
  rcases Nat.le_one_iff_eq_zero_or_eq_one.1 (le_one_of_reaches_loopedStump h) with rfl | rfl
  · rfl
  · rfl

end LoopedStump

/-- The node that nothing leads to may have any entries; the cycle is found all the same. -/
theorem compile_decides_loopedStump :
    (∃ visited, (loopedStump 7 0.5 9).compileByWorklist singleName =
        some ((loopedStump 7 0.5 9).compile singleName, visited) ∧ visited.Nodup ∧
          ∀ i ∈ visited, (loopedStump 7 0.5 9).Reaches i) ∧
      (loopedStump 7 0.5 9).SameLengths (loopedStump (-2) 0.25 (-1)) ∧
      (∀ i, (loopedStump 7 0.5 9).Reaches i →
        (loopedStump (-2) 0.25 (-1)).node? i = (loopedStump 7 0.5 9).node? i) ∧
      (loopedStump (-2) 0.25 (-1)).compile singleName = (loopedStump 7 0.5 9).compile singleName ∧
      (loopedStump 7 0.5 9).compile singleName = .error (.cycle 0) := by
  have hlengths := sameLengths_loopedStump 7 (-2) 9 (-1) 0.5 0.25
  have hentry := node?_loopedStump_of_reaches 7 (-2) 9 (-1) 0.5 0.25
  have hcycle : (loopedStump 7 0.5 9).compile singleName = .error (.cycle 0) := by rfl
  have hdecides := compile_decides_finite_trees (loopedStump 7 0.5 9) singleName
  have hsame := hdecides.2.2 (loopedStump (-2) 0.25 (-1)) hlengths hentry
  exact ⟨hdecides.1, hlengths, hentry, hsame, hcycle⟩

end FittedTree

end LeadScoring
