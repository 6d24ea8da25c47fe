import LeadScoring.Proofs.Tree.Preorder
import Mathlib.Data.Set.Card
import Mathlib.Order.Interval.Set.Nat

/-!
# Numbering nodes in pre-order

A table gives the children of its nodes as positions, and any two positions can stand there.  This
module says what makes such a table a tree numbered in pre-order, without speaking of a tree: by the
nodes that the child entries lead to.  A table that lays out a decision tree, part behind part, is
numbered so.

Main results:

- Definitions `Branching.Descends`, `Branching.below`: the ways down from a node and the nodes that
  they lead to.
- Definition `Branching.PreOrder`: nodes numbered in pre-order.
- Definition `Branching.LaysOut`: a decision tree laid out from a position on.
- Theorem `Branching.LaysOut.below_eq`: below a part stand its own positions.
- Theorem `Branching.LaysOut.preOrder`: a table that lays out a tree is numbered in pre-order.
- Theorem `Branching.LaysOut.isGreatest_depth`: the longest way down to a leaf.
-/

namespace LeadScoring

/-- The two children of each node of a table, nothing for a leaf. -/
abbrev Branching := Nat → Option (Nat × Nat)

namespace Branching

/-- A node is one of the two children of another one. -/
def IsChild (b : Branching) (node child : Nat) : Prop :=
  ∃ left right, b node = some (left, right) ∧ (child = left ∨ child = right)

/-- The ways down from a node, with the number of their edges and the node where they end. -/
inductive Descends (b : Branching) : Nat → Nat → Nat → Prop
  | stay (node : Nat) : Descends b node 0 node
  | down {node child edges last : Nat} (step : b.IsChild node child)
      (rest : Descends b child edges last) : Descends b node (edges + 1) last

/-- The nodes that ways down from a node lead to, itself included. -/
def below (b : Branching) (node : Nat) : Set Nat :=
  {last | ∃ edges, b.Descends node edges last}

/-- The nodes up to a count are numbered in pre-order: all of them stand below node zero, the left
child of a node comes next and the right one behind all nodes below the left one, and every other
node hangs below exactly one. -/
structure PreOrder (b : Branching) (count : Nat) : Prop where
  below_root : b.below 0 = Set.Iio count
  left_eq : ∀ node left right, b node = some (left, right) → left = node + 1
  right_eq : ∀ node left right, b node = some (left, right) →
    right = node + 1 + (b.below left).ncard
  existsUnique_above : ∀ node, 0 < node → node < count → ∃! above, b.IsChild above node

/-! ## Ways down -/

section Ways

variable {b : Branching} {node left right last edges : Nat}

theorem isChild_iff (h : b node = some (left, right)) {child : Nat} :
    b.IsChild node child ↔ child = left ∨ child = right := by
  simp [IsChild, h]

/-- From a leaf no way leads on. -/
theorem descends_of_none (h : b node = none) :
    b.Descends node edges last ↔ edges = 0 ∧ last = node := by
  constructor
  · rintro (_ | ⟨⟨left, right, hsplit, -⟩, -⟩)
    · exact ⟨rfl, rfl⟩
    · cases h.symm.trans hsplit
  · rintro ⟨rfl, rfl⟩
    exact .stay _

/-- From a split all ways lead on by one of its children. -/
theorem descends_of_some (h : b node = some (left, right)) :
    b.Descends node edges last ↔
      (edges = 0 ∧ last = node) ∨ ∃ less, edges = less + 1 ∧
        (b.Descends left less last ∨ b.Descends right less last) := by
  constructor
  · rintro (_ | ⟨step, rest⟩)
    · exact Or.inl ⟨rfl, rfl⟩
    · rcases (isChild_iff h).1 step with rfl | rfl
      · exact Or.inr ⟨_, rfl, Or.inl rest⟩
      · exact Or.inr ⟨_, rfl, Or.inr rest⟩
  · rintro (⟨rfl, rfl⟩ | ⟨less, rfl, rest | rest⟩)
    · exact .stay _
    · exact .down ((isChild_iff h).2 (Or.inl rfl)) rest
    · exact .down ((isChild_iff h).2 (Or.inr rfl)) rest

/-- A way leads on to the children of the node where it ends. -/
theorem Descends.next {child : Nat} (h : b.Descends node edges last)
    (hchild : b.IsChild last child) : b.Descends node (edges + 1) child := by
  induction h with
  | stay node => exact .down hchild (.stay child)
  | down step rest ih => exact .down step (ih hchild)

theorem below_of_none (h : b node = none) : b.below node = {node} := by
  ext last
  simp [below, descends_of_none h]

/-- Below a split there are itself and what is below its children. -/
theorem below_of_some (h : b node = some (left, right)) :
    b.below node = {node} ∪ (b.below left ∪ b.below right) := by
  ext last
  simp only [below, Set.mem_ofPred_eq, Set.mem_union, Set.mem_singleton_iff, descends_of_some h]
  constructor
  · rintro ⟨edges, ⟨-, heq⟩ | ⟨less, -, hleft | hright⟩⟩
    · exact Or.inl heq
    · exact Or.inr (Or.inl ⟨less, hleft⟩)
    · exact Or.inr (Or.inr ⟨less, hright⟩)
  · rintro (heq | ⟨less, hleft⟩ | ⟨less, hright⟩)
    · exact ⟨0, Or.inl ⟨rfl, heq⟩⟩
    · exact ⟨less + 1, Or.inr ⟨less, rfl, Or.inl hleft⟩⟩
    · exact ⟨less + 1, Or.inr ⟨less, rfl, Or.inr hright⟩⟩

end Ways

/-! ## Trees laid out -/

variable {α : Type}

/-- The nodes from a position on are those of a tree: the root, then the left part, then the right
one. -/
def LaysOut (b : Branching) : Nat → DecisionTree α → Prop
  | slot, .leaf _ => b slot = none
  | slot, .split _ _ _ left right =>
    b slot = some (slot + 1, slot + 1 + left.size) ∧ b.LaysOut (slot + 1) left ∧
      b.LaysOut (slot + 1 + left.size) right

namespace LaysOut

variable {b : Branching} {tree : DecisionTree α} {slot : Nat}

/-- Below the root of a part stand the positions of the part. -/
theorem below_eq (h : b.LaysOut slot tree) : b.below slot = Set.Ico slot (slot + tree.size) := by
  induction tree generalizing slot with
  | leaf counts =>
    rw [below_of_none h]
    ext i
    simp only [Set.mem_singleton_iff, Set.mem_Ico, DecisionTree.size]
    omega
  | split feature threshold counts left right ihl ihr =>
    obtain ⟨hroot, hleft, hright⟩ := h
    have hpos := right.size_pos
    rw [below_of_some hroot, ihl hleft, ihr hright]
    ext i
    simp only [Set.mem_union, Set.mem_singleton_iff, Set.mem_Ico, DecisionTree.size]
    omega

/-- Every position of a tree is that of a part, which ends inside the tree. -/
theorem exists_part (h : b.LaysOut slot tree) {i : Nat} (hlow : slot ≤ i)
    (hi : i < slot + tree.size) :
    ∃ part : DecisionTree α, b.LaysOut i part ∧ i + part.size ≤ slot + tree.size := by
  induction tree generalizing slot with
  | leaf counts =>
    obtain rfl : i = slot := by
      simp only [DecisionTree.size] at hi
      omega
    exact ⟨_, h, le_refl _⟩
  | split feature threshold counts left right ihl ihr =>
    rcases hlow.eq_or_lt with rfl | hlow
    · exact ⟨_, h, le_refl _⟩
    · obtain ⟨-, hleft, hright⟩ := h
      simp only [DecisionTree.size] at hi ⊢
      by_cases hpart : i < slot + 1 + left.size
      · obtain ⟨part, hpart, hend⟩ := ihl hleft hlow hpart
        exact ⟨part, hpart, by omega⟩
      · obtain ⟨part, hpart, hend⟩ := ihr hright (not_lt.1 hpart) (by omega)
        exact ⟨part, hpart, by omega⟩

/-- The children of a position are those of the part that stands there. -/
theorem children_of_some (h : b.LaysOut slot tree) {i left right : Nat} (hlow : slot ≤ i)
    (hi : i < slot + tree.size) (hsplit : b i = some (left, right)) :
    left = i + 1 ∧ right = i + 1 + (b.below left).ncard ∧ left < right ∧
      right < slot + tree.size := by
  obtain ⟨part, hpart, hend⟩ := h.exists_part hlow hi
  cases part with
  | leaf counts => cases hsplit.symm.trans hpart
  | split feature threshold counts leftPart rightPart =>
    obtain ⟨hroot, hleft, -⟩ := hpart
    cases hsplit.symm.trans hroot
    have hpos := leftPart.size_pos
    have hpos' := rightPart.size_pos
    simp only [DecisionTree.size] at hend
    have hcount : (b.below (i + 1)).ncard = leftPart.size := by
      rw [hleft.below_eq, Set.ncard_Ico_nat]
      omega
    rw [hcount]
    exact ⟨rfl, rfl, by omega, by omega⟩

/-- Children stand behind their parent and inside the tree. -/
theorem bounds_of_isChild (h : b.LaysOut slot tree) {above i : Nat} (hlow : slot ≤ above)
    (habove : above < slot + tree.size) (hchild : b.IsChild above i) :
    above < i ∧ i < slot + tree.size := by
  obtain ⟨left, right, hsplit, hside⟩ := hchild
  obtain ⟨hleft, -, hlt, hright⟩ := h.children_of_some hlow habove hsplit
  omega

/-- A position of a split hangs below the root as the root of a part, or below another position of
the part that it belongs to. -/
theorem above_cases {feature : Nat} {threshold : α} {counts : ClassCounts α}
    {left right : DecisionTree α} (h : b.LaysOut slot (.split feature threshold counts left right))
    {above i : Nat} (hlow : slot ≤ above) (habove : above < slot + 1 + left.size + right.size)
    (hchild : b.IsChild above i) :
    (above = slot ∧ (i = slot + 1 ∨ i = slot + 1 + left.size)) ∨
      (slot + 1 ≤ above ∧ above < i ∧ i < slot + 1 + left.size) ∨
      (slot + 1 + left.size ≤ above ∧ above < i ∧ i < slot + 1 + left.size + right.size) := by
  obtain ⟨hroot, hleft, hright⟩ := h
  rcases hlow.eq_or_lt with rfl | hlow
  · exact Or.inl ⟨rfl, (isChild_iff hroot).1 hchild⟩
  · by_cases hpart : above < slot + 1 + left.size
    · exact Or.inr (Or.inl ⟨hlow, hleft.bounds_of_isChild hlow hpart hchild⟩)
    · exact Or.inr (Or.inr
        ⟨not_lt.1 hpart, hright.bounds_of_isChild (not_lt.1 hpart) habove hchild⟩)

/-- Every position but the first one hangs below exactly one other one of the tree. -/
theorem existsUnique_above (h : b.LaysOut slot tree) {i : Nat} (hlow : slot < i)
    (hi : i < slot + tree.size) :
    ∃! above, (slot ≤ above ∧ above < slot + tree.size) ∧ b.IsChild above i := by
  induction tree generalizing slot with
  | leaf counts =>
    simp only [DecisionTree.size] at hi
    omega
  | split feature threshold counts left right ihl ihr =>
    simp only [DecisionTree.size, ← Nat.add_assoc] at hi ⊢
    -- Whatever else the position hangs below is in the same of the three places.
    by_cases hside : i = slot + 1 ∨ i = slot + 1 + left.size
    · refine ⟨slot, ⟨⟨le_refl _, by omega⟩, (isChild_iff h.1).2 hside⟩, ?_⟩
      rintro other ⟨⟨hge, hlt⟩, hchild⟩
      have hplace := h.above_cases hge hlt hchild
      omega
    · by_cases hpart : i < slot + 1 + left.size
      · obtain ⟨above, ⟨⟨hge, hlt⟩, hchild⟩, hunique⟩ := ihl h.2.1 (by omega) hpart
        refine ⟨above, ⟨⟨by omega, by omega⟩, hchild⟩, ?_⟩
        rintro other ⟨⟨hge', hlt'⟩, hother⟩
        have hplace := h.above_cases hge' hlt' hother
        exact hunique other ⟨by omega, hother⟩
      · obtain ⟨above, ⟨⟨hge, hlt⟩, hchild⟩, hunique⟩ := ihr h.2.2 (by omega) hi
        refine ⟨above, ⟨⟨by omega, by omega⟩, hchild⟩, ?_⟩
        rintro other ⟨⟨hge', hlt'⟩, hother⟩
        have hplace := h.above_cases hge' hlt' hother
        exact hunique other ⟨by omega, hother⟩

/-- A table that lays out a tree from node zero on, and has no other nodes, is numbered in
pre-order. -/
theorem preOrder (h : b.LaysOut 0 tree) (hout : ∀ i, tree.size ≤ i → b i = none) :
    b.PreOrder tree.size := by
  have hinside : ∀ node left right, b node = some (left, right) → node < 0 + tree.size := by
    intro node left right hsplit
    by_contra hge
    cases hsplit.symm.trans (hout node (by omega))
  constructor
  · rw [h.below_eq, Nat.zero_add]
    ext i
    simp
  · intro node left right hsplit
    exact (h.children_of_some (Nat.zero_le node) (hinside _ _ _ hsplit) hsplit).1
  · intro node left right hsplit
    exact (h.children_of_some (Nat.zero_le node) (hinside _ _ _ hsplit) hsplit).2.1
  · intro node hpos hlt
    obtain ⟨above, ⟨-, hchild⟩, hunique⟩ := h.existsUnique_above hpos (by omega)
    refine ⟨above, hchild, fun other hother => hunique other ⟨⟨Nat.zero_le _, ?_⟩, hother⟩⟩
    obtain ⟨left, right, hsplit, -⟩ := hother
    exact hinside _ _ _ hsplit

/-- The longest way down to a leaf has as many edges as the tree is deep. -/
theorem isGreatest_depth (h : b.LaysOut slot tree) :
    IsGreatest {edges | ∃ leaf, b.Descends slot edges leaf ∧ b leaf = none} tree.depth := by
  induction tree generalizing slot with
  | leaf counts =>
    refine ⟨⟨slot, .stay slot, h⟩, ?_⟩
    rintro edges ⟨leaf, hway, -⟩
    rw [descends_of_none h] at hway
    exact hway.1.le
  | split feature threshold counts left right ihl ihr =>
    obtain ⟨hroot, hleft, hright⟩ := h
    obtain ⟨⟨leftLeaf, hleftWay, hleftEnd⟩, hleftMax⟩ := ihl hleft
    obtain ⟨⟨rightLeaf, hrightWay, hrightEnd⟩, hrightMax⟩ := ihr hright
    simp only [DecisionTree.depth, Nat.add_comm 1]
    constructor
    · rcases le_total left.depth right.depth with hle | hle
      · rw [max_eq_right hle]
        exact ⟨rightLeaf, (descends_of_some hroot).2 (Or.inr ⟨_, rfl, Or.inr hrightWay⟩), hrightEnd⟩
      · rw [max_eq_left hle]
        exact ⟨leftLeaf, (descends_of_some hroot).2 (Or.inr ⟨_, rfl, Or.inl hleftWay⟩), hleftEnd⟩
    · rintro edges ⟨leaf, hway, hend⟩
      rcases (descends_of_some hroot).1 hway with ⟨rfl, -⟩ | ⟨less, rfl, hway | hway⟩
      · exact Nat.zero_le _
      · have hle := hleftMax ⟨leaf, hway, hend⟩
        omega
      · have hle := hrightMax ⟨leaf, hway, hend⟩
        omega

end LaysOut

end Branching

end LeadScoring
