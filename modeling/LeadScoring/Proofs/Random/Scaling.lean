import LeadScoring.Proofs.Random
import Mathlib.Algebra.Order.Floor.Div
import Mathlib.Data.Set.Card
import Mathlib.Order.Interval.Finset.Nat

/-!
# Bounded draws

A number below a bound is drawn by multiplying a word of 32 bits by the bound and dropping the lower
32 bits of the product.  So the words that are scaled to the same number follow one another, from the
least word whose product reaches that number times `2 ^ 32` to the last one before the next such
multiple.  Counting them tells how even the draws are, also for a bound that does not divide
`2 ^ 32`.

Main results:

- Theorem `Generator.mul_lt_two_pow`: the product fits a word of 64 bits.
- Theorem `Generator.scaled_eq_iff`: the words that are scaled to a number follow one another.
- Theorem `Generator.ncard_scaled`: how many they are.
- Theorem `Generator.below_drawsEvenly`: no number below the bound is preferred.
-/

namespace LeadScoring

/-! ## Multiples rounded up -/

section CeilDiv

variable {m : ℕ} (hm : 0 < m) (x n : ℕ)

include hm

/-- Between a quotient rounded up and that of a dividend which is larger by `n`, there is room for
`n / m` rounded down. -/
theorem ceilDiv_add_div_le : x ⌈/⌉ m + n / m ≤ (x + n) ⌈/⌉ m := by
  have hsum : x + n ≤ m * ((x + n) ⌈/⌉ m) := le_smul_ceilDiv hm
  have hn : m * (n / m) ≤ n := Nat.mul_div_le n m
  have hx : x ⌈/⌉ m ≤ (x + n) ⌈/⌉ m - n / m := by
    rw [ceilDiv_le_iff_le_mul hm, Nat.mul_sub]
    omega
  have hle : n / m ≤ (x + n) ⌈/⌉ m :=
    Nat.div_le_of_le_mul ((Nat.le_add_left n x).trans hsum)
  omega

/-- And there is no more room than `n / m` rounded up. -/
theorem ceilDiv_add_le : (x + n) ⌈/⌉ m ≤ x ⌈/⌉ m + n ⌈/⌉ m := by
  have hx : x ≤ m * (x ⌈/⌉ m) := le_smul_ceilDiv hm
  have hn : n ≤ m * (n ⌈/⌉ m) := le_smul_ceilDiv hm
  rw [ceilDiv_le_iff_le_mul hm, Nat.mul_add]
  exact Nat.add_le_add hx hn

omit x in
theorem ceilDiv_le_div_add_one : n ⌈/⌉ m ≤ n / m + 1 := by
  rw [ceilDiv_le_iff_le_mul hm]
  exact (Nat.lt_mul_div_succ n hm).le

end CeilDiv

namespace Generator

variable {bound : ℕ}

/-! ## Words scaled to a number -/

/-- The product of a word of 32 bits and a bound up to `2 ^ 32` fits a word of 64 bits. -/
theorem mul_lt_two_pow (hle : bound ≤ 2 ^ 32) (word : UInt32) : word.toNat * bound < 2 ^ 64 := by
  have hword : word.toNat < 2 ^ 32 := word.toNat_lt
  calc word.toNat * bound ≤ word.toNat * 2 ^ 32 := Nat.mul_le_mul_left _ hle
    _ < 2 ^ 32 * 2 ^ 32 := Nat.mul_lt_mul_of_pos_right hword (by decide)
    _ = 2 ^ 64 := by decide

/-- A bound up to `2 ^ 32` is scaled without overflow. -/
theorem scaled_eq (hle : bound ≤ 2 ^ 32) (word : UInt32) :
    scaled word bound = word.toNat * bound / 2 ^ 32 := by
  have hfits : word.toNat * bound < 0x10000000000000000 := mul_lt_two_pow hle word
  rw [scaled, Nat.mod_eq_of_lt hfits]
  rfl

/-- A word is scaled to `r` if its product reaches `r * 2 ^ 32` and not the next multiple. -/
theorem scaled_eq_iff (hpos : 0 < bound) (hle : bound ≤ 2 ^ 32) {word : UInt32} {r : ℕ} :
    scaled word bound = r ↔
      word.toNat ∈ Set.Ico ((r * 2 ^ 32) ⌈/⌉ bound) (((r + 1) * 2 ^ 32) ⌈/⌉ bound) := by
  rw [scaled_eq hle, Set.mem_Ico, ceilDiv_le_iff_le_mul hpos, ← Nat.not_le,
    ceilDiv_le_iff_le_mul hpos, Nat.mul_comm bound, Nat.div_eq_iff (by decide)]
  omega

/-- The words that are scaled to `r` are as many as the numbers between its two limits. -/
theorem ncard_scaled (hpos : 0 < bound) (hle : bound ≤ 2 ^ 32) {r : ℕ} (hr : r < bound) :
    {word | scaled word bound = r}.ncard =
      ((r + 1) * 2 ^ 32) ⌈/⌉ bound - (r * 2 ^ 32) ⌈/⌉ bound := by
  have himage : UInt32.toNat '' {word | scaled word bound = r} =
      (Finset.Ico ((r * 2 ^ 32) ⌈/⌉ bound) (((r + 1) * 2 ^ 32) ⌈/⌉ bound) : Set ℕ) := by
    rw [Finset.coe_Ico]
    ext n
    constructor
    · rintro ⟨word, hword, rfl⟩
      exact (scaled_eq_iff hpos hle).1 hword
    · intro hn
      -- The last limit is at most `2 ^ 32`, so every number before it is a word.
      have hlimit : ((r + 1) * 2 ^ 32) ⌈/⌉ bound ≤ 2 ^ 32 := by
        rw [ceilDiv_le_iff_le_mul hpos]
        exact Nat.mul_le_mul_right _ hr
      have hword : (UInt32.ofNat n).toNat = n :=
        UInt32.toNat_ofNat_of_lt' (hn.2.trans_le hlimit)
      exact ⟨UInt32.ofNat n, (scaled_eq_iff hpos hle).2 (by rwa [hword]), hword⟩
  rw [← Set.ncard_image_of_injective _ fun _ _ => UInt32.toNat_inj.1, himage,
    Set.ncard_coe_finset, Nat.card_Ico]

/-! ## Even draws -/

/-- A number below `bound`, unless the product of word and bound overflows 64 bits. -/
def below? (g : Generator) (bound : ℕ) : Option (ℕ × Generator) :=
  if bound = 0 then some (0, g)
  else if g.next32.1.toNat * bound < 2 ^ 64 then
    some (g.next32.1.toNat * bound / 2 ^ 32, g.next32.2)
  else none

/-- A draw below a bound up to `2 ^ 32` does not overflow. -/
theorem below?_eq (hle : bound ≤ 2 ^ 32) (g : Generator) : g.below? bound = some (g.below bound) := by
  rw [below?, below, if_pos (mul_lt_two_pow hle _), ← scaled_eq hle]
  split <;> rfl

/-- Words of 32 bits are scaled evenly to the numbers below `bound`: each number has `2 ^ 32 / bound`
words, rounded down or up, and no number has two words more than another. -/
structure DrawsEvenly (bound : ℕ) : Prop where
  lt : ∀ word : UInt32, scaled word bound < bound
  ncard_words : ∀ r < bound, {word | scaled word bound = r}.ncard = 2 ^ 32 / bound ∨
    {word | scaled word bound = r}.ncard = 2 ^ 32 ⌈/⌉ bound
  ncard_le : ∀ r < bound, ∀ s < bound,
    {word | scaled word bound = r}.ncard ≤ {word | scaled word bound = s}.ncard + 1

/-- The words are spread over the numbers below a bound as evenly as possible. -/
theorem drawsEvenly (hpos : 0 < bound) (hle : bound ≤ 2 ^ 32) : DrawsEvenly bound := by
  have hround := ceilDiv_le_div_add_one hpos (2 ^ 32)
  have hbetween : ∀ r < bound, 2 ^ 32 / bound ≤ {word | scaled word bound = r}.ncard ∧
      {word | scaled word bound = r}.ncard ≤ 2 ^ 32 ⌈/⌉ bound := by
    intro r hr
    have hleast := ceilDiv_add_div_le hpos (r * 2 ^ 32) (2 ^ 32)
    have hmost := ceilDiv_add_le hpos (r * 2 ^ 32) (2 ^ 32)
    rw [ncard_scaled hpos hle hr, Nat.add_one_mul]
    omega
  refine ⟨fun word => scaled_lt word hpos, fun r hr => ?_, fun r hr s hs => ?_⟩
  · have hnumber := hbetween r hr
    omega
  · have hfirst := hbetween r hr
    have hsecond := hbetween s hs
    omega

/-- Every draw below a bound from 1 to `2 ^ 32` scales the next word of 32 bits to a number below the
bound without overflow, and the words are scaled evenly. -/
theorem below_drawsEvenly (hpos : 1 ≤ bound) (hle : bound ≤ 2 ^ 32) :
    (∀ g : Generator, g.below bound = (scaled g.next32.1 bound, g.next32.2) ∧
      (g.below bound).1 < bound ∧ g.next32.1.toNat * bound < 2 ^ 64 ∧
        g.below? bound = some (g.below bound)) ∧
    DrawsEvenly bound := by
  refine ⟨fun g => ⟨if_neg (Nat.ne_of_gt hpos), g.below_lt hpos, ?_, below?_eq hle g⟩,
    drawsEvenly hpos hle⟩
  exact mul_lt_two_pow hle _

/-- The largest bound that does not divide `2 ^ 32`: every number has one word or two. -/
theorem below_drawsEvenly_nearlyAllWords :
    (1 ≤ 2 ^ 32 - 1 ∧ 2 ^ 32 - 1 ≤ 2 ^ 32) ∧
      (∀ g : Generator, (g.below (2 ^ 32 - 1)).1 < 2 ^ 32 - 1 ∧
        g.below? (2 ^ 32 - 1) = some (g.below (2 ^ 32 - 1))) ∧
      ∀ r < 2 ^ 32 - 1, {word | scaled word (2 ^ 32 - 1) = r}.ncard = 1 ∨
        {word | scaled word (2 ^ 32 - 1) = r}.ncard = 2 := by
  have hpos : 1 ≤ 2 ^ 32 - 1 := by decide
  have hle : 2 ^ 32 - 1 ≤ 2 ^ 32 := Nat.sub_le _ _
  obtain ⟨hdraws, heven⟩ := below_drawsEvenly hpos hle
  exact ⟨⟨hpos, hle⟩, fun g => ⟨(hdraws g).2.1, (hdraws g).2.2.2⟩, heven.ncard_words⟩

end Generator

end LeadScoring
