import LeadScoring.Attribution
import LeadScoring.Proofs.Scalar.Magnitude

/-!
# Rankings by weight

An explanation keeps the strongest impacts of a list.  Sorting is stable, so entries are ranked by
their weights and, where these are equal, by their places.  A ranking names the places: no place
twice, each of them before every later one and before all that are left out.

Main results:

- Definitions `Precedes` and `Ranking`: the foremost places of a list.
- Theorem `exists_ranking`: the first entries of a stably sorted list are ranked.
- Theorem `topByMagnitude_ranks`: the strongest impacts, by magnitudes with not-a-number above
  infinity.
-/

namespace LeadScoring

/-! ## Foremost places -/

section Places

variable {β : Type}

/-- The entry at one place ranks before the entry at another: it weighs at least as much, and of
entries of equal weight it is the earlier one. -/
def Precedes (atLeast : β → β → Prop) (xs : List β) (i j : ℕ) : Prop :=
  ∃ a b, xs[i]? = some a ∧ xs[j]? = some b ∧ atLeast a b ∧ (atLeast b a → i < j)

/-- The places of the foremost entries of a list, in the order of their ranks. -/
structure Ranking (atLeast : β → β → Prop) (xs : List β) (k : ℕ) (places : List ℕ) : Prop where
  length_eq : places.length = min k xs.length
  nodup : places.Nodup
  inside : ∀ i ∈ places, i < xs.length
  ordered : places.Pairwise (Precedes atLeast xs)
  foremost : ∀ i ∈ places, ∀ j < xs.length, j ∉ places → Precedes atLeast xs i j

variable {le : β → β → Bool}

/-- Of two numbered entries that are sorted the first one precedes the second. -/
theorem precedes_of_zipIdxLE {xs : List β} {p q : β × ℕ} (hp : p ∈ xs.zipIdx) (hq : q ∈ xs.zipIdx)
    (hne : p.2 ≠ q.2) (h : List.zipIdxLE le p q = true) :
    Precedes (fun a b => le a b = true) xs p.2 q.2 := by
  refine ⟨p.1, q.1, List.mem_zipIdx_iff_getElem?.1 hp, List.mem_zipIdx_iff_getElem?.1 hq, ?_, ?_⟩
  · unfold List.zipIdxLE at h
    split_ifs at h with hle
    · exact hle
    · exact hle
  · intro hback
    unfold List.zipIdxLE at h
    split_ifs at h with hle
    have hplace : p.2 ≤ q.2 := by simpa using h
    omega

/-! ## Sorting -/

/-- The entries of a list with their places, sorted. -/
def numbered (le : β → β → Bool) (xs : List β) : List (β × ℕ) :=
  xs.zipIdx.mergeSort (List.zipIdxLE le)

theorem numbered_perm (le : β → β → Bool) (xs : List β) : (numbered le xs).Perm xs.zipIdx :=
  List.mergeSort_perm _ _

/-- Sorting with places sorts the entries. -/
theorem map_fst_numbered (le : β → β → Bool) (xs : List β) :
    (numbered le xs).map Prod.fst = xs.mergeSort le :=
  List.mergeSort_zipIdx

/-- The places are those of the list, in another order. -/
theorem perm_map_snd_numbered (le : β → β → Bool) (xs : List β) :
    ((numbered le xs).map Prod.snd).Perm (List.range xs.length) := by
  have hperm := (numbered_perm le xs).map Prod.snd
  rwa [List.zipIdx_map_snd, ← List.range_eq_range'] at hperm

section Sorted

variable (htrans : ∀ a b c, le a b = true → le b c = true → le a c = true)
  (htotal : ∀ a b, (le a b || le b a) = true)

include htrans htotal

/-- Of two places of the sorted list the first one precedes the second. -/
theorem pairwise_precedes (xs : List β) :
    ((numbered le xs).map Prod.snd).Pairwise (Precedes (fun a b => le a b = true) xs) := by
  have hsorted : (numbered le xs).Pairwise fun p q => List.zipIdxLE le p q = true :=
    List.pairwise_mergeSort (List.zipIdxLE_trans htrans) (List.zipIdxLE_total htotal) _
  have hnodup : (numbered le xs).Pairwise fun p q => p.2 ≠ q.2 :=
    List.pairwise_map.1 ((perm_map_snd_numbered le xs).nodup_iff.2 List.nodup_range)
  rw [List.pairwise_map]
  refine (hsorted.and hnodup).imp_of_mem fun hp hq h => ?_
  exact precedes_of_zipIdxLE ((numbered_perm le xs).mem_iff.1 hp)
    ((numbered_perm le xs).mem_iff.1 hq) h.2 h.1

/-- The first entries of a sorted list are the foremost entries of the list. -/
theorem exists_ranking (xs : List β) (k : ℕ) :
    ∃ places, Ranking (fun a b => le a b = true) xs k places ∧
      ((xs.mergeSort le).take k).map some = places.map (xs[·]?) := by
  have hperm := perm_map_snd_numbered le xs
  have hpairwise := pairwise_precedes htrans htotal xs
  refine ⟨((numbered le xs).map Prod.snd).take k, ⟨?_, ?_, ?_, ?_, ?_⟩, ?_⟩
  · rw [List.length_take, hperm.length_eq, List.length_range]
  · exact (hperm.nodup_iff.2 List.nodup_range).sublist (List.take_sublist _ _)
  · intro i hi
    exact List.mem_range.1 (hperm.mem_iff.1 (List.mem_of_mem_take hi))
  · exact hpairwise.sublist (List.take_sublist _ _)
  · intro i hi j hj hnot
    have hmem := hperm.mem_iff.2 (List.mem_range.2 hj)
    rw [← List.take_append_drop k ((numbered le xs).map Prod.snd)] at hmem hpairwise
    exact (List.pairwise_append.1 hpairwise).2.2 i hi j ((List.mem_append.1 hmem).resolve_left hnot)
  · rw [← map_fst_numbered, ← List.map_take, ← List.map_take, List.map_map, List.map_map]
    refine List.map_congr_left fun p hp => ?_
    have hmem := (numbered_perm le xs).mem_iff.1 (List.mem_of_mem_take hp)
    exact (List.mem_zipIdx_iff_getElem?.1 hmem).symm

/-- The foremost of the foremost entries are the foremost entries. -/
theorem take_mergeSort_take (xs : List β) (j k : ℕ) :
    (((xs.mergeSort le).take k).mergeSort le).take j = (xs.mergeSort le).take (min j k) := by
  have hsorted := List.pairwise_mergeSort htrans htotal xs
  rw [List.mergeSort_of_pairwise (hsorted.sublist (List.take_sublist _ _)), List.take_take]

end Sorted

end Places

/-! ## Impacts -/

/-- An impact weighs at least as much as another one. -/
def Impact.AtLeast (a b : Impact Float) : Prop :=
  Binary64.MagnitudeLe b.impact a.impact

/-- The comparison of impacts decides which one weighs at least as much. -/
theorem Impact.outweighs_iff (a b : Impact Float) : a.outweighs b = true ↔ a.AtLeast b :=
  Binary64.totalLe_magnitude_iff b.impact a.impact

theorem Impact.outweighs_trans (a b c : Impact Float) (hab : a.outweighs b = true)
    (hbc : b.outweighs c = true) : a.outweighs c = true := by
  simp only [outweighs, Scalar.totalLe, decide_eq_true_eq] at hab hbc ⊢
  exact hbc.trans hab

theorem Impact.outweighs_total (a b : Impact Float) :
    (a.outweighs b || b.outweighs a) = true := by
  simp only [outweighs, Scalar.totalLe, Bool.or_eq_true, decide_eq_true_eq]
  exact le_total _ _

/-- The leading impacts are a ranking of all of them. -/
theorem exists_ranking_topByMagnitude (impacts : List (Impact Float)) (k : ℕ) :
    ∃ places, Ranking Impact.AtLeast impacts k places ∧
      (topByMagnitude impacts k).map some = places.map (impacts[·]?) := by
  have hweigh : (fun a b : Impact Float => a.outweighs b = true) = Impact.AtLeast := by
    funext a b
    exact propext (a.outweighs_iff b)
  have hranking := exists_ranking Impact.outweighs_trans Impact.outweighs_total impacts k
  rwa [hweigh] at hranking

/-! ## Explanations -/

namespace Explainer

variable {α : Type} [Scalar α]

theorem size_contributionSums (e : Explainer α) (values : Array α) :
    (e.contributionSums values).size = e.vocabulary.size := by
  have hkeeps : ∀ (credits : List (ℕ × α)) (sums : Array α),
      (credits.foldl (fun sums credit => sums.modify credit.1 (· + credit.2)) sums).size =
        sums.size := by
    intro credits
    induction credits with
    | nil => exact fun _ => rfl
    | cons credit credits ih =>
      intro sums
      rw [List.foldl_cons, ih, Array.size_modify]
  exact (hkeeps _ _).trans Array.size_replicate

theorem length_contributions (e : Explainer α) (values : Array α) :
    (e.attributeAligned values).contributions.length = e.vocabulary.names.length := by
  simp only [attributeAligned, List.length_map, Array.length_toList]
  exact size_contributionSums e values

/-- The contributions to the score of a lead, in the order of the vocabulary. -/
def impactsOf (e : Explainer α) (lead : Lead) : List (Impact α) :=
  (e.vocabulary.names.zip (e.attributeAligned (e.vocabulary.encode lead)).contributions).map
    fun (name, x) => ⟨name, x⟩

/-- The impacts name the inputs in the order of the vocabulary. -/
theorem map_feature_impactsOf (e : Explainer α) (lead : Lead) :
    (e.impactsOf lead).map (·.feature) = e.vocabulary.names := by
  rw [impactsOf, List.map_map]
  exact List.map_fst_zip (length_contributions e _).ge

/-- The impacts of a lead are the contributions to its score. -/
theorem map_impact_impactsOf (e : Explainer α) (lead : Lead) :
    (e.impactsOf lead).map (·.impact) =
      (e.attributeAligned (e.vocabulary.encode lead)).contributions := by
  rw [impactsOf, List.map_map]
  exact List.map_snd_zip (length_contributions e _).le

end Explainer

/-- The strongest impacts are the foremost ones of a list, by their magnitudes and, where these are
equal, by their places.  Fewer of them are the first of more, and they can be chosen among more.
The strongest contributions to a score are ranked like this in the order of the vocabulary. -/
theorem topByMagnitude_ranks (impacts : List (Impact Float)) {j k : ℕ} (h : j ≤ k) :
    (∃ places, Ranking Impact.AtLeast impacts k places ∧
        (topByMagnitude impacts k).map some = places.map (impacts[·]?)) ∧
      topByMagnitude impacts j = (topByMagnitude impacts k).take j ∧
      topByMagnitude (topByMagnitude impacts k) j = topByMagnitude impacts j ∧
      ∀ (e : Explainer Float) (lead : Lead),
        (e.impactsOf lead).map (·.feature) = e.vocabulary.names ∧
          (e.impactsOf lead).map (·.impact) =
            (e.attributeAligned (e.vocabulary.encode lead)).contributions ∧
          ∃ places, Ranking Impact.AtLeast (e.impactsOf lead) e.kept places ∧
            (e.explain lead).explanation.map some = places.map ((e.impactsOf lead)[·]?) := by
  refine ⟨exists_ranking_topByMagnitude impacts k, ?_, ?_, fun e lead => ⟨?_, ?_, ?_⟩⟩
  · rw [topByMagnitude, topByMagnitude, List.take_take, Nat.min_eq_left h]
  · rw [topByMagnitude, topByMagnitude, topByMagnitude,
      take_mergeSort_take Impact.outweighs_trans Impact.outweighs_total, Nat.min_eq_left h]
  · exact e.map_feature_impactsOf lead
  · exact e.map_impact_impactsOf lead
  · exact exists_ranking_topByMagnitude (e.impactsOf lead) e.kept

/-- Impacts with two pairs of equal magnitudes and two that are not finite. -/
def tiedImpacts : List (Impact Float) :=
  [⟨"Downloads", 0.1⟩, ⟨"Page Views", 0.0⟩, ⟨"Industry", 1.0 / 0.0⟩, ⟨"Company Size", -0.1⟩,
    ⟨"Webinar Attended", 0.0 / 0.0⟩, ⟨"Title", -0.0⟩]

/-- Impacts with ties, both zeros, infinity and not-a-number. -/
theorem topByMagnitude_ranks_tiedImpacts :
    2 ≤ 3 ∧
      (∃ places, Ranking Impact.AtLeast tiedImpacts 3 places ∧
        (topByMagnitude tiedImpacts 3).map some = places.map (tiedImpacts[·]?)) ∧
      topByMagnitude tiedImpacts 2 = (topByMagnitude tiedImpacts 3).take 2 ∧
      topByMagnitude (topByMagnitude tiedImpacts 3) 2 = topByMagnitude tiedImpacts 2 := by
  have hle : 2 ≤ 3 := by decide
  obtain ⟨hranking, htake, hagain, -⟩ := topByMagnitude_ranks tiedImpacts hle
  exact ⟨hle, hranking, htake, hagain⟩

end LeadScoring
