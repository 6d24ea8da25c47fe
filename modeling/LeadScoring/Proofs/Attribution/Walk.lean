import LeadScoring.Proofs.Attribution.CheckedPath

/-!
# The walk over a tree

The walk that computes contributions extends one path on its way down and takes the element of a
feature off when the feature is tested again.  Every path that it arrives with is regular: its
features are distinct, each is followed by the vector or by some rows, and its weights are the
coefficients of the product of its factors, scaled.  Such a path is determined by its elements in
any order, so taking one off leaves the path of the others.

Main results:

- Definition `ShapleyPath.ofElements`: the path of a list of elements, with the closed form
  `ShapleyPath.ofElements_eq` and `ShapleyPath.weights_ofElements_perm`.
- Definition `ShapleyPath.Regular`, with `Regular.extend`, `Regular.releases` and
  `Regular.reentry` for what the walk does to a path.
- Definition `DecisionTree.arrivals`: the nodes that the walk arrives at, with their paths.
- Theorem `DecisionTree.arrivals_regular`: the walk arrives with regular paths only.
-/

namespace LeadScoring

open Checked (number)

namespace ShapleyPath

/-! ## Paths by their elements -/

/-- The path of some elements, extended by one after the other. -/
def ofElements (elements : List (PathElement ℚ)) : ShapleyPath ℚ :=
  elements.foldl (fun p e => p.extend e.feature e.zeroFraction e.oneFraction) .empty

section OfElements

variable {p : ShapleyPath ℚ} {root : PathElement ℚ} {tested : List (PathElement ℚ)}

/-- The weights behind a root are coefficients, whatever the elements. -/
theorem ofElements_eq (root : PathElement ℚ) (tested : List (PathElement ℚ)) :
    ofElements (root :: tested) =
      ⟨root :: tested, (List.range (tested.length + 1)).map (weightOf tested)⟩ := by
  induction tested using List.reverseRecOn with
  | nil => simp [ofElements, extend, empty, extendedWeights, weightOf, polynomialOf]
  | append_singleton tested e ih =>
    have hlast : ofElements (root :: (tested ++ [e])) =
        (ofElements (root :: tested)).extend e.feature e.zeroFraction e.oneFraction := by
      rw [ofElements, ofElements, ← List.cons_append, List.foldl_append]
      rfl
    rw [hlast, ih, extend_eq rfl rfl]

/-- The order of the elements behind the root does not matter to the weights. -/
theorem weights_ofElements_perm {others : List (PathElement ℚ)} (h : others.Perm tested) :
    (ofElements (root :: others)).weights = (ofElements (root :: tested)).weights := by
  rw [ofElements_eq, ofElements_eq, weightOf_perm h, h.length_eq]

end OfElements

/-! ## Regular paths -/

/-- A path below the root: every element is followed by the vector or by some rows, no feature is
tested twice, and the weights are coefficients in closed form. -/
structure Regular (p : ShapleyPath ℚ) : Prop where
  root : p.elements.head? = some ⟨none, 1, 1⟩
  followed : ∀ e ∈ p.elements, ¬ (e.zeroFraction = 0 ∧ e.oneFraction = 0)
  distinct : (p.elements.map PathElement.feature).Nodup
  weights : p.weights = (List.range p.elements.length).map (weightOf p.elements.tail)

section Regular

variable {n m : ℕ} {p : ShapleyPath ℚ} {tested before after : List (PathElement ℚ)}
  {e : PathElement ℚ} {feature : ℕ} {zero one : ℚ} {j : ℕ}

theorem Represents.mono (h : p.Represents n tested) (hle : n ≤ m) : p.Represents m tested where
  elements := h.elements
  weights := h.weights
  listed := by
    intro e he
    obtain ⟨f, hf, hfeature⟩ := h.listed e he
    exact ⟨f, Finset.range_mono hle hf, hfeature⟩
  distinct := h.distinct
  followed := h.followed

/-- A path for some tested features below a root that everything passes is regular. -/
theorem Represents.regular (h : p.Represents n tested)
    (hroot : p.elements.head? = some ⟨none, 1, 1⟩) : p.Regular := by
  obtain ⟨root, -, helements⟩ := h.elements
  obtain rfl : root = ⟨none, 1, 1⟩ := by simpa [helements] using hroot
  refine ⟨hroot, ?_, ?_, ?_⟩
  · intro e he
    rw [helements] at he
    rcases List.mem_cons.1 he with rfl | he
    · norm_num
    · exact h.followed e he
  · rw [helements, List.map_cons, List.nodup_cons]
    refine ⟨?_, h.distinct⟩
    intro hmem
    obtain ⟨e, he, hnone⟩ := List.mem_map.1 hmem
    obtain ⟨f, -, hfeature⟩ := h.listed e he
    rw [hfeature] at hnone
    cases hnone
  · rw [helements, List.length_cons, List.tail_cons]
    exact h.weights

/-- Above the root nothing has been tested. -/
theorem regular_root : (ShapleyPath.empty.extend none 1 1).Regular :=
  (represents_root 0 1 1).regular rfl

namespace Regular

theorem elements_eq (h : p.Regular) : p.elements = ⟨none, 1, 1⟩ :: p.elements.tail :=
  (List.cons_head?_tail h.root).symm

/-- The weights of a regular path in closed form, one for each number of features. -/
theorem weights_eq (h : p.Regular) :
    p.weights = (List.range (p.elements.tail.length + 1)).map (weightOf p.elements.tail) := by
  rw [← List.length_cons, ← h.elements_eq]
  exact h.weights

/-- The tested features of a regular path are distinct features below some number. -/
theorem exists_represents (h : p.Regular) : ∃ n, p.Represents n p.elements.tail := by
  have hdistinct := h.distinct
  rw [h.elements_eq, List.map_cons, List.nodup_cons] at hdistinct
  have hmem : ∀ e ∈ p.elements.tail, e ∈ p.elements := fun _ => List.mem_of_mem_tail
  refine ⟨(p.elements.map fun e => e.feature.getD 0).sum + 1, ⟨_, rfl, h.elements_eq⟩,
    h.weights_eq, ?_, hdistinct.2, fun e he => h.followed e (hmem e he)⟩
  intro e he
  cases hfeature : e.feature with
  | none => exact absurd (List.mem_map.2 ⟨e, he, hfeature⟩) hdistinct.1
  | some f =>
    have hlisted : f ∈ p.elements.map fun e => e.feature.getD 0 :=
      List.mem_map.2 ⟨e, hmem e he, by rw [hfeature, Option.getD_some]⟩
    exact ⟨f, Finset.mem_range.2 (Nat.lt_succ_of_le (List.le_sum_of_mem hlisted)), rfl⟩

/-- A regular path is that of its elements, one after the other. -/
theorem eq_ofElements (h : p.Regular) : p = ofElements p.elements := by
  conv_rhs => rw [h.elements_eq, ofElements_eq, ← h.weights_eq, ← h.elements_eq]

/-- One more feature is tested. -/
theorem extend (h : p.Regular) (hnew : ∀ e ∈ p.elements, e.feature ≠ some feature)
    (hfollowed : ¬ (zero = 0 ∧ one = 0)) : (p.extend (some feature) zero one).Regular := by
  obtain ⟨n, hn⟩ := h.exists_represents
  have hn' : p.Represents (max n (feature + 1)) p.elements.tail := hn.mono (le_max_left _ _)
  refine (represents_extend hn' (lt_of_lt_of_le (Nat.lt_succ_self _) (le_max_right _ _))
    (fun e he => hnew e (List.mem_of_mem_tail he)) hfollowed).regular ?_
  change (p.elements ++ [_]).head? = _
  rw [List.head?_append, h.root, Option.some_or]

end Regular

/-- An element behind the root, with the elements before and after it. -/
theorem exists_tail_split (hlow : 1 ≤ j) (hhigh : j < p.elements.length) :
    ∃ before e after, p.elements.tail = before ++ e :: after ∧ j = before.length + 1 := by
  have hindex : j - 1 < p.elements.tail.length := by
    rw [List.length_tail]
    omega
  refine ⟨p.elements.tail.take (j - 1), p.elements.tail[j - 1], p.elements.tail.drop j, ?_, ?_⟩
  · have hj : j - 1 + 1 = j := by omega
    conv_lhs => rw [← List.take_append_drop (j - 1) p.elements.tail,
      ← List.getElem_cons_drop hindex, hj]
  · rw [List.length_take]
    omega

/-- Only the element that is taken off is missing. -/
theorem elements_unwind (hindex : j < p.elements.length) (hweights : p.weights ≠ []) :
    (p.unwind j).elements = p.elements.eraseIdx j := by
  obtain ⟨last, others, hreverse⟩ :=
    List.exists_cons_of_ne_nil (mt List.reverse_eq_nil_iff.1 hweights)
  rw [unwind, List.getElem?_eq_getElem hindex, hreverse]

/-- What taking an element off a path gives: the path of the other elements in their order, whose
weights add up to the sum that is computed without taking it off.  Neither of the two computations
divides by zero. -/
structure Releases (p : ShapleyPath ℚ) (j : ℕ) : Prop where
  regular : (p.unwind j).Regular
  others : p.unwind j = ofElements (p.elements.eraseIdx j)
  sum : p.unwoundSum j = (p.unwind j).weights.sum
  checked_path : p.checked.unwind j = (p.unwind j).checked
  checked_sum : p.checked.unwoundSum j = number (p.unwoundSum j)

namespace Regular

/-- Every element behind the root can be taken off. -/
theorem releases (h : p.Regular) (hlow : 1 ≤ j) (hhigh : j < p.elements.length) :
    p.Releases j := by
  obtain ⟨before, e, after, hsplit, hj⟩ := exists_tail_split hlow hhigh
  obtain ⟨n, hn⟩ := h.exists_represents
  rw [hsplit] at hn
  have hunwound : (p.unwind j).Represents n (before ++ after) := hj ▸ represents_unwind hn
  have hweights : p.weights ≠ [] := by
    rw [h.weights_eq, List.range_succ]
    simp
  have helements := elements_unwind hhigh hweights
  have hroot : (p.unwind j).elements.head? = some ⟨none, 1, 1⟩ := by
    obtain ⟨i, rfl⟩ := Nat.exists_eq_add_of_le' hlow
    rw [helements, h.elements_eq, List.eraseIdx_cons_succ, List.head?_cons]
  have hregular := hunwound.regular hroot
  refine ⟨hregular, ?_, ?_, ?_, checked_unwoundSum p j⟩
  · rw [← helements]
    exact hregular.eq_ofElements
  · rw [hunwound.weights, sum_weightOf, hj]
    exact unwoundSum_eq hn
  · exact checked_unwind fun e he => h.followed e (List.mem_of_getElem? he)

/-- The element of a tested feature stands behind the root. -/
theorem one_le_position (h : p.Regular) {test : ℕ} (hposition : p.position? test = some j) :
    1 ≤ j ∧ j < p.elements.length := by
  obtain ⟨hindex, hfeature, -⟩ := List.findIdx?_eq_some_iff_getElem.1 hposition
  refine ⟨Nat.one_le_iff_ne_zero.2 ?_, hindex⟩
  rintro rfl
  have hfirst : p.elements[0] = ⟨none, 1, 1⟩ := by
    have hroot := h.root
    rw [List.head?_eq_getElem?, List.getElem?_eq_getElem hindex] at hroot
    exact Option.some_inj.1 hroot
  simp [hfirst] at hfeature

/-- Testing a feature, be it again, leaves a regular path without it. -/
theorem reentry (h : p.Regular) (test : ℕ) :
    (p.reentry test).2.2.Regular ∧
      ∀ e ∈ (p.reentry test).2.2.elements, e.feature ≠ some test := by
  obtain ⟨n, hn⟩ := h.exists_represents
  obtain ⟨others, hothers, hnew, -⟩ := reentry_spec hn test
  constructor
  · rw [ShapleyPath.reentry]
    cases hposition : p.position? test with
    | none => exact h
    | some i =>
      obtain ⟨hlow, hhigh⟩ := h.one_le_position hposition
      simp only [List.getElem?_eq_getElem hhigh]
      exact (h.releases hlow hhigh).regular
  · obtain ⟨root, hroot, helements⟩ := hothers.elements
    intro e he
    rw [helements] at he
    rcases List.mem_cons.1 he with rfl | he
    · rw [hroot]
      exact Option.some_ne_none test |>.symm
    · exact hnew e he

end Regular

end Regular

end ShapleyPath

/-! ## The walk over a tree -/

namespace DecisionTree

open ShapleyPath

/-- The arrivals of the walk below a path that is entered with the given fractions: every node that
the vector or some rows reach, with the path that leads to it. -/
def arrivalsFrom (values : Array ℚ) (path : ShapleyPath ℚ) (zero one : ℚ) (entered : Option ℕ)
    (tree : DecisionTree ℚ) : List (ShapleyPath ℚ × DecisionTree ℚ) :=
  if zero = 0 ∧ one = 0 then []
  else
    (path.extend entered zero one, tree) ::
      match tree with
      | leaf _ => []
      | split test threshold _ left right =>
        let entry := (path.extend entered zero one).reentry test
        let fractions := childFractions left right
        if valueAt values test ≤ threshold then
          arrivalsFrom values entry.2.2 (fractions.1 * entry.1) entry.2.1 (some test) left ++
            arrivalsFrom values entry.2.2 (fractions.2 * entry.1) 0 (some test) right
        else
          arrivalsFrom values entry.2.2 (fractions.2 * entry.1) entry.2.1 (some test) right ++
            arrivalsFrom values entry.2.2 (fractions.1 * entry.1) 0 (some test) left

/-- The arrivals of the walk over a tree, a node before those below it. -/
def arrivals (values : Array ℚ) (tree : DecisionTree ℚ) : List (ShapleyPath ℚ × DecisionTree ℚ) :=
  tree.arrivalsFrom values .empty 1 1 none

/-- What is contributed on an arrival: only leaves contribute. -/
def creditsAt : ShapleyPath ℚ × DecisionTree ℚ → List (ℕ × ℚ)
  | (path, leaf c) => path.leafCredits c.rate
  | (_, split _ _ _ _ _) => []

section Arrivals

variable (values : Array ℚ)

/-- The contributions of a tree are those of the visited leaves. -/
theorem creditsFrom_eq_flatMap_arrivalsFrom (tree : DecisionTree ℚ) :
    ∀ (path : ShapleyPath ℚ) (zero one : ℚ) (entered : Option ℕ),
      tree.creditsFrom values path zero one entered =
        (tree.arrivalsFrom values path zero one entered).flatMap creditsAt := by
  induction tree with
  | leaf counts =>
    intro path zero one entered
    by_cases h : zero = 0 ∧ one = 0
    · rw [creditsFrom_of_zero values path entered _ h, arrivalsFrom, if_pos h, List.flatMap_nil]
    · rw [creditsFrom, if_neg fun hc => h (Exact.both_beq_zero_iff.1 hc), arrivalsFrom, if_neg h,
        List.flatMap_singleton, creditsAt]
  | split test threshold counts left right ihl ihr =>
    intro path zero one entered
    by_cases h : zero = 0 ∧ one = 0
    · rw [creditsFrom_of_zero values path entered _ h, arrivalsFrom, if_pos h, List.flatMap_nil]
    · rw [creditsFrom_split values path zero one entered test threshold counts left right h,
        arrivalsFrom, if_neg h, List.flatMap_cons, creditsAt, List.nil_append]
      dsimp only
      by_cases hle : valueAt values test ≤ threshold
      · rw [if_pos hle, if_pos hle, List.flatMap_append, ihl, ihr]
      · rw [if_neg hle, if_neg hle, List.flatMap_append, ihl, ihr]

/-- A walk that enters its tree with a regular path visits every node with one. -/
theorem regular_of_mem_arrivalsFrom (tree : DecisionTree ℚ) :
    ∀ {path : ShapleyPath ℚ} {zero one : ℚ} {entered : Option ℕ},
      (¬ (zero = 0 ∧ one = 0) → (path.extend entered zero one).Regular) →
        ∀ arrival ∈ tree.arrivalsFrom values path zero one entered, arrival.1.Regular := by
  induction tree with
  | leaf counts =>
    intro path zero one entered hpath arrival harrival
    rw [arrivalsFrom] at harrival
    split_ifs at harrival with h
    · cases harrival
    · rw [List.mem_singleton.1 harrival]
      exact hpath h
  | split test threshold counts left right ihl ihr =>
    intro path zero one entered hpath arrival harrival
    rw [arrivalsFrom] at harrival
    by_cases h : zero = 0 ∧ one = 0
    · rw [if_pos h] at harrival
      cases harrival
    rw [if_neg h] at harrival
    rcases List.mem_cons.1 harrival with rfl | harrival
    · exact hpath h
    obtain ⟨hregular, hnew⟩ := (hpath h).reentry test
    have hchild : ∀ z o : ℚ, ¬ (z = 0 ∧ o = 0) →
        ((((path.extend entered zero one).reentry test).2.2).extend (some test) z o).Regular :=
      fun z o => hregular.extend hnew
    dsimp only at harrival
    by_cases hle : valueAt values test ≤ threshold
    · rw [if_pos hle] at harrival
      rcases List.mem_append.1 harrival with harrival | harrival
      · exact ihl (hchild _ _) arrival harrival
      · exact ihr (hchild _ _) arrival harrival
    · rw [if_neg hle] at harrival
      rcases List.mem_append.1 harrival with harrival | harrival
      · exact ihr (hchild _ _) arrival harrival
      · exact ihl (hchild _ _) arrival harrival

/-- The walk over a tree is an exact computation with coefficients: every path that it arrives with
is regular, its weights do not depend on the order of the tested features, and taking any of them
off gives the path of the others. -/
theorem arrivals_regular (tree : DecisionTree ℚ) :
    tree.credits values = (tree.arrivals values).flatMap creditsAt ∧
      ∀ arrival ∈ tree.arrivals values,
        arrival.1.Regular ∧
          (∀ others : List (PathElement ℚ), others.Perm arrival.1.elements.tail →
            (ofElements (⟨none, 1, 1⟩ :: others)).weights = arrival.1.weights) ∧
          ∀ j, 1 ≤ j → j < arrival.1.elements.length → arrival.1.Releases j := by
  refine ⟨creditsFrom_eq_flatMap_arrivalsFrom values tree .empty 1 1 none, ?_⟩
  intro arrival harrival
  have hregular : arrival.1.Regular :=
    regular_of_mem_arrivalsFrom values tree (fun _ => regular_root) arrival harrival
  refine ⟨hregular, ?_, fun j hlow hhigh => hregular.releases hlow hhigh⟩
  intro others hothers
  rw [weights_ofElements_perm hothers, ← hregular.elements_eq, ← hregular.eq_ofElements]

end Arrivals

/-- A tree that tests its first feature again, below a test of its second one. -/
def retesting : DecisionTree ℚ :=
  .split 0 1 ⟨6, 2⟩
    (.split 1 1 ⟨3, 1⟩ (.split 0 0 ⟨2, 1⟩ (.leaf ⟨1, 0⟩) (.leaf ⟨1, 1⟩)) (.leaf ⟨1, 0⟩))
    (.leaf ⟨3, 1⟩)

/-- The path to its leftmost leaf for a vector that leaves for the other side at the last test. -/
def retestingPath : ShapleyPath ℚ :=
  ⟨[⟨none, 1, 1⟩, ⟨some 1, 3 / 4, 1⟩, ⟨some 0, 1 / 6, 0⟩], [1 / 24, 1 / 36, 0]⟩

/-- A tree that tests a feature again: its arrivals are regular and release both features. -/
theorem arrivals_regular_retesting :
    (retestingPath, .leaf ⟨1, 0⟩) ∈ retesting.arrivals #[1, 0] ∧
      retestingPath.Regular ∧
      (ofElements [⟨none, 1, 1⟩, ⟨some 0, 1 / 6, 0⟩, ⟨some 1, 3 / 4, 1⟩]).weights =
        retestingPath.weights ∧
      retestingPath.Releases 1 ∧ retestingPath.Releases 2 := by
  have harrival : (retestingPath, .leaf ⟨1, 0⟩) ∈ retesting.arrivals #[1, 0] := by decide +kernel
  obtain ⟨hregular, hperm, hreleases⟩ := (arrivals_regular #[1, 0] retesting).2 _ harrival
  exact ⟨harrival, hregular, hperm _ (List.Perm.swap _ _ _), hreleases 1 (by decide) (by decide),
    hreleases 2 (by decide) (by decide)⟩

end DecisionTree

end LeadScoring
