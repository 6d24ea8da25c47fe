import LeadScoring.Proofs.Attribution.PathWeights

/-!
# Paths as games

The distinct features tested above a node form a game of their own: a coalition is worth the product
of what every tested feature contributes, its one fraction if it is present and its zero fraction
otherwise.  A path that represents a list of tested features computes the Shapley values of this
game.

Main results:

- Definition `ShapleyPath.Represents`: a path for a list of tested features.
- Theorems `ShapleyPath.represents_extend`, `ShapleyPath.represents_unwind`: the operations on
  paths.
- Theorem `ShapleyPath.creditTo_leafCredits`: the contributions to a leaf are Shapley values.
-/

open Polynomial

namespace LeadScoring

/-! ## The game of a path -/

namespace PathElement

/-- What an element contributes to a coalition. -/
def worth (e : PathElement ℚ) (S : Finset ℕ) : ℚ :=
  match e.feature with
  | some feature => if feature ∈ S then e.oneFraction else e.zeroFraction
  | none => 1

variable {e : PathElement ℚ} {feature : ℕ} {S : Finset ℕ}

/-- With its feature known, an element is worth its one fraction. -/
theorem worth_of_mem (h : e.feature = some feature) (hS : feature ∈ S) :
    e.worth S = e.oneFraction := by
  rw [worth, h]
  exact if_pos hS

/-- With its feature unknown, an element is worth its zero fraction. -/
theorem worth_of_notMem (h : e.feature = some feature) (hS : feature ∉ S) :
    e.worth S = e.zeroFraction := by
  rw [worth, h]
  exact if_neg hS

/-- A feature that is not tested changes nothing. -/
theorem worth_insert (h : e.feature ≠ some feature) : e.worth (insert feature S) = e.worth S := by
  rw [worth, worth]
  cases hfeature : e.feature with
  | none => rfl
  | some other =>
    have hne : other ≠ feature := fun heq => h (heq ▸ hfeature)
    simp [hne]

end PathElement

namespace ShapleyPath

/-- The worth of a coalition: the product of what tested features contribute. -/
def worthOf (tested : List (PathElement ℚ)) (S : Finset ℕ) : ℚ :=
  (tested.map fun e => e.worth S).prod

section Game

variable {tested before after : List (PathElement ℚ)} {e : PathElement ℚ} {feature : ℕ}
  {S : Finset ℕ}

/-- Features that are not tested make no difference to what elements are worth. -/
theorem worthOf_insert (h : ∀ e ∈ tested, e.feature ≠ some feature) :
    worthOf tested (insert feature S) = worthOf tested S := by
  rw [worthOf, worthOf]
  congr 1
  exact List.map_congr_left fun e he => PathElement.worth_insert (h e he)

/-- Elements are worth the product of their parts. -/
theorem worthOf_append (tested others : List (PathElement ℚ)) (S : Finset ℕ) :
    worthOf (tested ++ others) S = worthOf tested S * worthOf others S := by
  rw [worthOf, List.map_append, List.prod_append, worthOf, worthOf]

/-- The element of one more feature weighs what it is worth with or without that feature. -/
theorem worthOf_append_singleton (tested : List (PathElement ℚ)) (feature : ℕ) (zero one : ℚ)
    (S : Finset ℕ) :
    worthOf (tested ++ [⟨some feature, zero, one⟩]) S =
      worthOf tested S * if feature ∈ S then one else zero := by
  have hone : worthOf [⟨some feature, zero, one⟩] S = if feature ∈ S then one else zero :=
    List.prod_singleton
  rw [worthOf_append, hone]

/-- The element of a feature splits off. -/
theorem worthOf_split (before after : List (PathElement ℚ)) (e : PathElement ℚ) (S : Finset ℕ) :
    worthOf (before ++ e :: after) S = e.worth S * worthOf (before ++ after) S := by
  simp only [worthOf, List.map_append, List.map_cons, List.prod_append, List.prod_cons]
  ring

/-- Features that are present with the same probability are worth the product of their blends. -/
theorem expectedWorth_worthOf {players : Finset ℕ} {tested : List (PathElement ℚ)}
    (hlisted : ∀ e ∈ tested, ∃ f ∈ players, e.feature = some f)
    (hdistinct : (tested.map PathElement.feature).Nodup) :
    expectedWorth players (worthOf tested) = (tested.map PathElement.blend).prod := by
  induction tested generalizing players with
  | nil => exact expectedWorth_one players
  | cons e tested ih =>
    obtain ⟨f, hf, hfeature⟩ := hlisted e (by simp)
    rw [List.map_cons, List.nodup_cons] at hdistinct
    have hothers : ∀ other ∈ tested, other.feature ≠ some f := by
      intro other hother heq
      exact hdistinct.1 (List.mem_map.2 ⟨other, hother, heq.trans hfeature.symm⟩)
    have hlisted' : ∀ other ∈ tested, ∃ g ∈ players.erase f, other.feature = some g := by
      intro other hother
      obtain ⟨g, hg, hother_feature⟩ := hlisted other (List.mem_cons_of_mem e hother)
      refine ⟨g, Finset.mem_erase.2 ⟨?_, hg⟩, hother_feature⟩
      rintro rfl
      exact hothers other hother hother_feature
    have habsent : expectedWorth (players.erase f) (worthOf (e :: tested)) =
        C e.zeroFraction * (tested.map PathElement.blend).prod := by
      rw [← ih hlisted' hdistinct.2, ← expectedWorth_const_mul]
      refine expectedWorth_congr fun S hS => ?_
      have hf_notMem : f ∉ S := fun hmem => Finset.notMem_erase f players (hS hmem)
      rw [worthOf, List.map_cons, List.prod_cons, PathElement.worth_of_notMem hfeature hf_notMem,
        worthOf]
    have hpresent :
        (expectedWorth (players.erase f) fun S => worthOf (e :: tested) (insert f S)) =
          C e.oneFraction * (tested.map PathElement.blend).prod := by
      rw [← ih hlisted' hdistinct.2, ← expectedWorth_const_mul]
      refine expectedWorth_congr fun S _ => ?_
      rw [worthOf, List.map_cons, List.prod_cons,
        PathElement.worth_of_mem hfeature (Finset.mem_insert_self f S), ← worthOf_insert hothers,
        worthOf]
    rw [← Finset.insert_erase hf, expectedWorth_insert (Finset.notMem_erase f players), habsent,
      hpresent, List.map_cons, List.prod_cons, PathElement.blend]
    ring

end Game

/-! ## Paths and the features they stand for -/

/-- A path stands for a list of distinct tested features below its root: it has their elements and
weights, and every one of them is followed by the vector or by some rows. -/
structure Represents (n : ℕ) (p : ShapleyPath ℚ) (tested : List (PathElement ℚ)) : Prop where
  elements : ∃ root : PathElement ℚ, root.feature = none ∧ p.elements = root :: tested
  weights : p.weights = (List.range (tested.length + 1)).map (weightOf tested)
  listed : ∀ e ∈ tested, ∃ f ∈ Finset.range n, e.feature = some f
  distinct : (tested.map PathElement.feature).Nodup
  followed : ∀ e ∈ tested, ¬ (e.zeroFraction = 0 ∧ e.oneFraction = 0)

section Operations

variable {n : ℕ} {p : ShapleyPath ℚ} {tested before after : List (PathElement ℚ)}
  {e : PathElement ℚ} {feature : ℕ} {zero one : ℚ}

/-- Above the root nothing has been tested. -/
theorem represents_root (n : ℕ) (zero one : ℚ) :
    (ShapleyPath.empty.extend none zero one).Represents n [] where
  elements := ⟨⟨none, zero, one⟩, rfl, rfl⟩
  weights := by simp [extend, empty, extendedWeights, weightOf, polynomialOf]
  listed := by simp
  distinct := by simp
  followed := by simp

/-- One more element in closed form. -/
theorem extend_eq {root : PathElement ℚ} (helements : p.elements = root :: tested)
    (hweights : p.weights = (List.range (tested.length + 1)).map (weightOf tested))
    (e : PathElement ℚ) :
    p.extend e.feature e.zeroFraction e.oneFraction = ⟨root :: (tested ++ [e]),
      (List.range ((tested ++ [e]).length + 1)).map (weightOf (tested ++ [e]))⟩ := by
  have hlength : p.elements.length = tested.length + 1 := by rw [helements, List.length_cons]
  have hextended : ExtendedBy e.zeroFraction e.oneFraction ((tested.length + 1 + 1 : ℕ) : ℚ)
      (tested.length + 1) (weightOf tested) (weightOf (tested ++ [e])) :=
    fun k hk => weightOf_append hk
  rw [extend, hlength, hweights, extendedWeights_eq hextended (by omega), helements,
    List.length_append, List.length_singleton, List.cons_append]

/-- One more feature is tested. -/
theorem represents_extend (h : p.Represents n tested) (hfeature : feature < n)
    (hnew : ∀ e ∈ tested, e.feature ≠ some feature) (hfollowed : ¬ (zero = 0 ∧ one = 0)) :
    (p.extend (some feature) zero one).Represents n (tested ++ [⟨some feature, zero, one⟩]) := by
  obtain ⟨root, hroot, helements⟩ := h.elements
  have hextend := extend_eq helements h.weights ⟨some feature, zero, one⟩
  refine ⟨⟨root, hroot, congrArg elements hextend⟩, congrArg weights hextend, ?_, ?_, ?_⟩
  · intro e he
    rcases List.mem_append.1 he with he | he
    · exact h.listed e he
    · rw [List.mem_singleton.1 he]
      exact ⟨feature, Finset.mem_range.2 hfeature, rfl⟩
  · rw [List.map_append, List.map_singleton, List.nodup_append]
    refine ⟨h.distinct, List.nodup_singleton _, ?_⟩
    intro f hf g hg
    obtain ⟨e, he, rfl⟩ := List.mem_map.1 hf
    rw [List.mem_singleton.1 hg]
    exact hnew e he
  · intro e he
    rcases List.mem_append.1 he with he | he
    · exact h.followed e he
    · rw [List.mem_singleton.1 he]
      exact hfollowed

/-- The weights of a path are those without one of its elements, extended by that element. -/
theorem extendedBy_split (before after : List (PathElement ℚ)) (e : PathElement ℚ) :
    ExtendedBy e.zeroFraction e.oneFraction (((before ++ after).length + 1 + 1 : ℕ) : ℚ)
      ((before ++ after).length + 1) (weightOf (before ++ after))
      (weightOf (before ++ e :: after)) := by
  have hperm : (before ++ e :: after).Perm ((before ++ after) ++ [e]) :=
    List.perm_middle.trans (List.perm_append_singleton e (before ++ after)).symm
  intro k hk
  rw [weightOf_perm hperm]
  exact weightOf_append hk

/-- Looking up the element of a tested feature, with the weights from the last one on. -/
theorem Represents.lookup (h : p.Represents n (before ++ e :: after)) :
    p.elements[before.length + 1]? = some e ∧
      p.elements.length = (before ++ after).length + 1 + 1 ∧
      p.weights.reverse = weightOf (before ++ e :: after) ((before ++ after).length + 1) ::
        ((List.range ((before ++ after).length + 1)).map
          (weightOf (before ++ e :: after))).reverse := by
  obtain ⟨root, -, helements⟩ := h.elements
  have hlength : (before ++ e :: after).length = (before ++ after).length + 1 := by
    simp only [List.length_append, List.length_cons]
    omega
  refine ⟨?_, ?_, ?_⟩
  · rw [helements, List.getElem?_cons_succ]
    simp
  · rw [helements, List.length_cons, hlength]
  · rw [h.weights, hlength, List.range_succ, List.map_append, List.reverse_append]
    rfl

/-- Splitting an element off that the vector follows leaves the weights of the others, last
first. -/
theorem unwoundWeights_split (before after : List (PathElement ℚ)) (hone : e.oneFraction ≠ 0) :
    unwoundWeights e.zeroFraction e.oneFraction (((before ++ after).length + 1 + 1 : ℕ) : ℚ)
        ((before ++ after).length + 1) ((before ++ after).length + 1)
        (weightOf (before ++ e :: after) ((before ++ after).length + 1))
        ((List.range ((before ++ after).length + 1)).map
          (weightOf (before ++ e :: after))).reverse =
      ((List.range ((before ++ after).length + 1)).map (weightOf (before ++ after))).reverse := by
  have hsplit := extendedBy_split before after e
  have hscale : (((before ++ after).length + 1 + 1 : ℕ) : ℚ) ≠ 0 := by positivity
  rw [hsplit.last]
  exact unwoundWeights_eq hsplit hone hscale _ (le_refl _)

/-- Scaling back an element that only some rows follow leaves the weights of the others, last
first. -/
theorem rescaledWeights_split (before after : List (PathElement ℚ)) (hone : e.oneFraction = 0)
    (hzero : e.zeroFraction ≠ 0) :
    rescaledWeights e.zeroFraction (((before ++ after).length + 1 + 1 : ℕ) : ℚ)
        ((before ++ after).length + 1) ((before ++ after).length + 1)
        ((List.range ((before ++ after).length + 1)).map
          (weightOf (before ++ e :: after))).reverse =
      ((List.range ((before ++ after).length + 1)).map (weightOf (before ++ after))).reverse := by
  have hsplit := extendedBy_split before after e
  have hscale : (((before ++ after).length + 1 + 1 : ℕ) : ℚ) ≠ 0 := by positivity
  rw [hone] at hsplit
  exact rescaledWeights_eq hsplit hzero hscale _ (le_refl _)

/-- Of the two fractions of an element on a path one is not zero. -/
theorem Represents.zeroFraction_ne (h : p.Represents n (before ++ e :: after))
    (hone : e.oneFraction = 0) : e.zeroFraction ≠ 0 :=
  fun hzero => h.followed e (by simp) ⟨hzero, hone⟩

/-- The elements beside that of a tested feature do not test it. -/
theorem Represents.ne_of_mem_others (h : p.Represents n (before ++ e :: after))
    (hfeature : e.feature = some feature) :
    ∀ other ∈ before ++ after, other.feature ≠ some feature := by
  have hdistinct := h.distinct
  rw [List.map_append, List.map_cons, List.nodup_middle, List.nodup_cons, hfeature,
    ← List.map_append] at hdistinct
  intro other hother heq
  exact hdistinct.1 (List.mem_map.2 ⟨other, hother, heq⟩)

/-- A tested feature is taken off the path. -/
theorem represents_unwind (h : p.Represents n (before ++ e :: after)) :
    (p.unwind (before.length + 1)).Represents n (before ++ after) := by
  obtain ⟨root, hroot, helements⟩ := h.elements
  obtain ⟨hget, hlength, hreverse⟩ := h.lookup
  have hsub : (before ++ after).Sublist (before ++ e :: after) :=
    (List.sublist_cons_self e after).append_left before
  have herase : p.elements.eraseIdx (before.length + 1) = root :: (before ++ after) := by
    rw [helements, List.eraseIdx_cons_succ, List.eraseIdx_append_of_length_le (le_refl _),
      Nat.sub_self, List.eraseIdx_cons_zero]
  have hunwind : p.unwind (before.length + 1) = ⟨root :: (before ++ after),
      (List.range ((before ++ after).length + 1)).map (weightOf (before ++ after))⟩ := by
    rw [unwind, hget, hreverse]
    simp only [hlength, Nat.add_sub_cancel, herase]
    by_cases hone : e.oneFraction = 0
    · rw [if_neg (fun hne => Exact.bne_zero_iff.1 hne hone),
        rescaledWeights_split before after hone (h.zeroFraction_ne hone), List.reverse_reverse]
    · rw [if_pos (Exact.bne_zero_iff.2 hone), unwoundWeights_split before after hone,
        List.reverse_reverse]
  rw [hunwind]
  refine ⟨⟨root, hroot, rfl⟩, rfl, ?_, ?_, ?_⟩
  · exact fun other hother => h.listed other (hsub.subset hother)
  · exact h.distinct.sublist (hsub.map _)
  · exact fun other hother => h.followed other (hsub.subset hother)

/-- The weights without an element sum up to the average of what the others are expected to be
worth. -/
theorem unwoundSum_eq (h : p.Represents n (before ++ e :: after)) :
    p.unwoundSum (before.length + 1) =
      unitAverage ((before ++ after).map PathElement.blend).prod := by
  obtain ⟨hget, hlength, hreverse⟩ := h.lookup
  rw [← sum_weightOf, ← List.sum_reverse, unwoundSum, hget, hreverse]
  simp only [hlength, Nat.add_sub_cancel]
  by_cases hone : e.oneFraction = 0
  · rw [if_neg (fun hne => Exact.bne_zero_iff.1 hne hone),
      scaledBackSum_eq_sum (h.zeroFraction_ne hone),
      rescaledWeights_split before after hone (h.zeroFraction_ne hone), Exact.zero_eq, zero_add]
  · rw [if_pos (Exact.bne_zero_iff.2 hone), splitOffSum_eq_sum,
      unwoundWeights_split before after hone, Exact.zero_eq, zero_add]

end Operations

/-! ## Contributions to a leaf -/

/-- The sum of the contributions to one feature. -/
def creditTo (feature : ℕ) (credits : List (ℕ × ℚ)) : ℚ :=
  ((credits.filter fun credit => credit.1 = feature).map Prod.snd).sum

/-- Credits of two parts add up. -/
theorem creditTo_append (feature : ℕ) (credits others : List (ℕ × ℚ)) :
    creditTo feature (credits ++ others) = creditTo feature credits + creditTo feature others := by
  simp [creditTo]

/-- A feature without credits gets nothing. -/
theorem creditTo_of_notMem {feature : ℕ} {credits : List (ℕ × ℚ)}
    (h : ∀ credit ∈ credits, credit.1 ≠ feature) : creditTo feature credits = 0 := by
  rw [creditTo, List.filter_eq_nil_iff.2 (by simpa using h)]
  rfl

section Leaf

variable {n : ℕ} {p : ShapleyPath ℚ} {tested before after : List (PathElement ℚ)}
  {e : PathElement ℚ} {feature : ℕ}

/-- The contribution of an element at a position of the path. -/
def creditOf (p : ShapleyPath ℚ) (value : ℚ) : PathElement ℚ × ℕ → Option (ℕ × ℚ) := fun (e, i) =>
  match e.feature with
  | some feature =>
    if i = 0 then none
    else some (feature, p.unwoundSum i * (e.oneFraction - e.zeroFraction) * value)
  | none => none

/-- Only tested features contribute. -/
theorem feature_of_creditOf {value : ℚ} {i : ℕ} {credit : ℕ × ℚ}
    (h : p.creditOf value (e, i) = some credit) : e.feature = some credit.1 := by
  cases hfeature : e.feature with
  | none => simp [creditOf, hfeature] at h
  | some f =>
    simp only [creditOf, hfeature] at h
    split_ifs at h
    cases h
    rfl

/-- A feature that is not tested on a path gets nothing from it. -/
theorem creditTo_filterMap_of_notMem {value : ℚ} {start : ℕ}
    (h : ∀ e ∈ tested, e.feature ≠ some feature) :
    creditTo feature ((tested.zipIdx start).filterMap (p.creditOf value)) = 0 := by
  refine creditTo_of_notMem fun credit hcredit heq => ?_
  obtain ⟨⟨e, i⟩, hmem, hcredit⟩ := List.mem_filterMap.1 hcredit
  exact h e (List.fst_mem_of_mem_zipIdx hmem) (heq ▸ feature_of_creditOf hcredit)

/-- The contributions to a leaf are those of the tested features. -/
theorem leafCredits_eq (h : p.Represents n tested) (value : ℚ) :
    p.leafCredits value = (tested.zipIdx 1).filterMap (p.creditOf value) := by
  obtain ⟨root, hroot, helements⟩ := h.elements
  have hnone : p.creditOf value (root, 0) = none := by
    unfold creditOf
    simp [hroot]
  change p.elements.zipIdx.filterMap (p.creditOf value) = _
  rw [helements, List.zipIdx_cons, List.filterMap_cons, hnone]

/-- The contribution to a tested feature. -/
theorem creditTo_leafCredits_split (h : p.Represents n (before ++ e :: after))
    (hfeature : e.feature = some feature) (value : ℚ) :
    creditTo feature (p.leafCredits value) =
      unitAverage ((before ++ after).map PathElement.blend).prod *
        (e.oneFraction - e.zeroFraction) * value := by
  have hothers := h.ne_of_mem_others hfeature
  have hcredit : p.creditOf value (e, 1 + before.length) =
      some (feature, unitAverage ((before ++ after).map PathElement.blend).prod *
        (e.oneFraction - e.zeroFraction) * value) := by
    rw [Nat.add_comm, ← unwoundSum_eq h]
    unfold creditOf
    simp [hfeature]
  rw [leafCredits_eq h, List.zipIdx_append, List.zipIdx_cons, List.filterMap_append,
    List.filterMap_cons, hcredit, creditTo_append,
    creditTo_filterMap_of_notMem fun other hother => hothers other (by simp [hother]), zero_add]
  change creditTo feature ([_] ++ _) = _
  rw [creditTo_append,
    creditTo_filterMap_of_notMem fun other hother => hothers other (by simp [hother]), add_zero]
  simp [creditTo]

/-- What a feature contributes to a leaf is its Shapley value in the game of the path. -/
theorem creditTo_leafCredits (h : p.Represents n tested) (hfeature : feature < n) (value : ℚ) :
    creditTo feature (p.leafCredits value) =
      shapleyValue n (fun S => worthOf tested S * value) feature := by
  by_cases htested : ∃ e ∈ tested, e.feature = some feature
  · obtain ⟨e, he, he_feature⟩ := htested
    obtain ⟨before, after, rfl⟩ := List.append_of_mem he
    have hsub : (before ++ after).Sublist (before ++ e :: after) :=
      (List.sublist_cons_self e after).append_left before
    have hothers := h.ne_of_mem_others he_feature
    have hlisted : ∀ other ∈ before ++ after,
        ∃ f ∈ (Finset.range n).erase feature, other.feature = some f := by
      intro other hother
      obtain ⟨f, hf, hother_feature⟩ := h.listed other (hsub.subset hother)
      refine ⟨f, Finset.mem_erase.2 ⟨?_, hf⟩, hother_feature⟩
      rintro rfl
      exact hothers other hother hother_feature
    -- Joining turns the zero fraction of the feature's element into its one fraction.
    have hadds : ∀ S ⊆ (Finset.range n).erase feature,
        worthOf (before ++ e :: after) (insert feature S) * value -
            worthOf (before ++ e :: after) S * value =
          (e.oneFraction - e.zeroFraction) * value * worthOf (before ++ after) S := by
      intro S hS
      have hnotMem : feature ∉ S := fun hmem => Finset.notMem_erase feature _ (hS hmem)
      rw [worthOf_split, worthOf_split, worthOf_insert hothers,
        PathElement.worth_of_mem he_feature (Finset.mem_insert_self feature S),
        PathElement.worth_of_notMem he_feature hnotMem]
      ring
    rw [creditTo_leafCredits_split h he_feature, shapleyValue_eq_unitAverage hfeature,
      expectedWorth_congr hadds, expectedWorth_const_mul,
      expectedWorth_worthOf hlisted (h.distinct.sublist (hsub.map _)), unitAverage_C_mul]
    ring
  · have hnew : ∀ e ∈ tested, e.feature ≠ some feature :=
      fun e he heq => htested ⟨e, he, heq⟩
    rw [leafCredits_eq h, creditTo_filterMap_of_notMem hnew, shapleyValue_of_null]
    intro S
    rw [worthOf_insert hnew]

end Leaf

end ShapleyPath

end LeadScoring
