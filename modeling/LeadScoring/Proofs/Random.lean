import LeadScoring.Random
import Mathlib.Data.List.Forall2
import Mathlib.Data.List.Perm.Basic

/-!
# Random arrangements

Shuffling and sampling only exchange entries, whatever is drawn.  What is drawn depends on the
number of entries alone, so lists with related entries are arranged alike.

Main results:

- Theorem `Generator.below_lt`: a bounded draw stays below its bound.
- Theorem `Generator.shuffle_perm`: a shuffled list is a rearrangement.
- Theorem `Generator.shuffle_map`: entries may be replaced before or after shuffling.
- Theorem `Generator.shuffle_forall₂`: entry by entry, shuffling keeps relations.
- Theorems `Generator.lt_of_mem_sample`, `Generator.nodup_sample`: a sample has distinct numbers
  below its bound.
- Theorem `Generator.sample_perm_range`: a large sample has all of them.
-/

namespace LeadScoring

variable {β : Type}

theorem toList_swapIfInBounds_perm (items : Array β) (i j : Nat) :
    (items.swapIfInBounds i j).toList.Perm items.toList := by
  unfold Array.swapIfInBounds
  split
  · split
    · exact (Array.perm_iff_toList_perm.1 (Array.swap_perm _ _))
    · exact List.Perm.refl _
  · exact List.Perm.refl _

/-- A run of exchanges down a list permutes it. -/
theorem exchangeDown_perm (items : Array β) (i : Nat) (draws : List Nat) :
    (exchangeDown items i draws).toList.Perm items.toList := by
  induction draws generalizing items i with
  | nil => exact List.Perm.refl _
  | cons j draws ih => exact (ih _ _).trans (toList_swapIfInBounds_perm items i j)

/-- A run of exchanges up a list permutes it. -/
theorem exchangeUp_perm (items : Array β) (i : Nat) (draws : List Nat) :
    (exchangeUp items i draws).toList.Perm items.toList := by
  induction draws generalizing items i with
  | nil => exact List.Perm.refl _
  | cons d draws ih => exact (ih _ _).trans (toList_swapIfInBounds_perm items i (i + d))

namespace Generator

/-- A word is scaled to a number below the bound, also where the product is cut to 64 bits. -/
theorem scaled_lt (word : UInt32) {bound : Nat} (h : 0 < bound) : scaled word bound < bound := by
  have hword : word.toNat < 2 ^ 32 := word.toNat_lt
  have hproduct : word.toNat * bound < bound * 2 ^ 32 := by
    rw [Nat.mul_comm]
    exact Nat.mul_lt_mul_of_pos_left hword h
  have hcut := Nat.mod_le (word.toNat * bound) 0x10000000000000000
  rw [scaled]
  exact Nat.div_lt_of_lt_mul (by omega)

/-- A bounded draw stays below its bound. -/
theorem below_lt (g : Generator) {bound : Nat} (h : 0 < bound) : (g.below bound).1 < bound := by
  rw [below, if_neg (Nat.ne_of_gt h)]
  exact scaled_lt _ h

/-- A shuffled list is a rearrangement. -/
theorem shuffle_perm (g : Generator) (items : List β) : (g.shuffle items).1.Perm items :=
  exchangeDown_perm items.toArray (items.length - 1) _

/-- A sample of the numbers below `n` stays below `n`. -/
theorem lt_of_mem_sample {g : Generator} {n k i : Nat} (h : i ∈ (g.sample n k).1) : i < n := by
  have hperm := exchangeUp_perm (Array.range n) 0 (g.sampleDraws n (min k n)).1
  have hmem : i ∈ (Array.range n).toList := hperm.subset (List.mem_of_mem_take h)
  simpa using hmem

/-- A sample draws no number twice. -/
theorem nodup_sample (g : Generator) (n k : Nat) : (g.sample n k).1.Nodup := by
  have hperm := exchangeUp_perm (Array.range n) 0 (g.sampleDraws n (min k n)).1
  rw [Array.toList_range] at hperm
  exact (hperm.nodup_iff.2 List.nodup_range).sublist (List.take_sublist _ _)

theorem length_sampleDraws (g : Generator) (n k : Nat) : (g.sampleDraws n k).1.length = k := by
  induction k generalizing g n with
  | zero => rfl
  | succ k ih => exact congrArg (· + 1) (ih (g.below n).2 (n - 1))

/-- A sample that is not smaller than its bound has all numbers below it. -/
theorem sample_perm_range {n k : Nat} (h : n ≤ k) (g : Generator) :
    (g.sample n k).1.Perm (List.range n) := by
  have hall : min k n = n := Nat.min_eq_right h
  have hperm := exchangeUp_perm (Array.range n) 0 (g.sampleDraws n n).1
  rw [Array.toList_range] at hperm
  have hlength := hperm.length_eq
  rw [List.length_range] at hlength
  change (sampled n (g.sampleDraws n (min k n)).1).Perm _
  rw [hall, sampled, length_sampleDraws, List.take_of_length_le (Nat.le_of_eq hlength)]
  exact hperm

/-- Of one number there is one sample. -/
theorem sample_one (g : Generator) : g.sample 1 1 = ([0], (g.sampleDraws 1 1).2) :=
  Prod.ext (List.perm_singleton.1 (sample_perm_range Nat.le.refl g)) rfl

end Generator

/-! ## Related entries -/

theorem map_swapIfInBounds {γ : Type} (f : β → γ) (items : Array β) (i j : Nat) :
    (items.map f).swapIfInBounds i j = (items.swapIfInBounds i j).map f := by
  unfold Array.swapIfInBounds
  simp only [Array.size_map]
  split
  · split
    · ext k hk
      · simp
      · simp only [Array.getElem_swap, Array.getElem_map]
        split_ifs <;> rfl
    · rfl
  · rfl

/-- Exchanges do not look at the entries that they move down a list. -/
theorem exchangeDown_map {γ : Type} (f : β → γ) (items : Array β) (i : Nat) (draws : List Nat) :
    exchangeDown (items.map f) i draws = (exchangeDown items i draws).map f := by
  induction draws generalizing items i with
  | nil => rfl
  | cons j draws ih => rw [exchangeDown, exchangeDown, map_swapIfInBounds, ih]

namespace Generator

/-- Entries may be replaced before or after shuffling. -/
theorem shuffle_map {γ : Type} (g : Generator) (f : β → γ) (items : List β) :
    g.shuffle (items.map f) = ((g.shuffle items).1.map f, (g.shuffle items).2) := by
  simp only [shuffle, shuffled, List.length_map]
  rw [← List.map_toArray, exchangeDown_map, Array.toList_map]

/-- Lists with related entries are arranged alike and leave the same generator. -/
theorem shuffle_forall₂ {γ : Type} {R : β → γ → Prop} {xs : List β} {ys : List γ}
    (h : List.Forall₂ R xs ys) (g : Generator) :
    List.Forall₂ R (g.shuffle xs).1 (g.shuffle ys).1 ∧ (g.shuffle xs).2 = (g.shuffle ys).2 := by
  obtain ⟨pairs, rfl, rfl, hpairs⟩ : ∃ pairs : List (β × γ),
      xs = pairs.map Prod.fst ∧ ys = pairs.map Prod.snd ∧ ∀ pair ∈ pairs, R pair.1 pair.2 :=
    ⟨xs.zip ys, (List.map_fst_zip (Nat.le_of_eq h.length_eq)).symm,
      (List.map_snd_zip (Nat.le_of_eq h.length_eq.symm)).symm,
      fun pair hpair => List.forall₂_zip h hpair⟩
  rw [shuffle_map, shuffle_map]
  refine ⟨?_, rfl⟩
  rw [List.forall₂_map_left_iff, List.forall₂_map_right_iff, List.forall₂_same]
  exact fun pair hpair => hpairs pair ((g.shuffle_perm pairs).subset hpair)

end Generator

end LeadScoring
