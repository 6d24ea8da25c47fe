import LeadScoring.Random
import Mathlib.Data.Fintype.EquivFin
import Mathlib.Data.Set.Function
import Mathlib.NumberTheory.Multiplicity

/-!
# The period of the generator

A step of the generator multiplies its state by a constant and adds another one, in words of 64 bits.
After `n` steps the state has moved by the sum of the first `n` powers of the multiplier, times an
odd number.  Since the multiplier leaves the remainder 1 on division by 4, that sum has as many
factors of two as `n` itself.  So the state is back where it was after the multiples of `2 ^ 64`
steps and after no other number of them.

Main results:

- Theorem `Affine.emultiplicity_iterate_sub`: how far the steps of a linear recurrence lead.
- Theorem `Affine.two_pow_dvd_iterate_sub_iff`: its period modulo a power of two.
- Theorem `Generator.after_eq_after_iff`: when two states of a run are the same.
- Theorem `Generator.bijOn_word`: as many draws as there are words give each word once.
- Theorem `Generator.next64_fullPeriod`: all of it for the draws of a generator.
-/

namespace LeadScoring

/-! ## Linear recurrences on whole numbers -/

namespace Affine

/-- A step of the recurrence with multiplier `a` and increment `c`. -/
def next (a c x : ℤ) : ℤ :=
  a * x + c

/-- The first step moves by `(a - 1) * x + c`, and `n` steps by that times the sum of the first `n`
powers of `a`. -/
theorem iterate_sub (a c x : ℤ) (n : ℕ) :
    (next a c)^[n] x - x = (∑ i ∈ Finset.range n, a ^ i) * ((a - 1) * x + c) := by
  induction n with
  | zero => simp
  | succ n ih =>
    have hmoved : (next a c)^[n] x = (∑ i ∈ Finset.range n, a ^ i) * ((a - 1) * x + c) + x :=
      sub_eq_iff_eq_add.1 ih
    rw [Function.iterate_succ_apply', hmoved, geom_sum_succ, next]
    ring

variable {a c : ℤ}

/-- The sum of the first `n` powers of `a` has as many factors of two as `n`. -/
theorem emultiplicity_geomSum (ha : 4 ∣ a - 1) (n : ℕ) :
    emultiplicity 2 (∑ i ∈ Finset.range n, a ^ i) = emultiplicity 2 (n : ℤ) := by
  rcases eq_or_ne a 1 with rfl | hne
  · simp
  · have hodd : ¬ 2 ∣ a := by omega
    have hfinite : FiniteMultiplicity 2 (a - 1) :=
      Int.finiteMultiplicity_iff.2 ⟨by decide, sub_ne_zero.2 hne⟩
    have hpowers := Int.two_pow_sub_pow' n ha hodd
    rw [one_pow, ← geom_sum_mul, emultiplicity_mul Int.prime_two, add_comm] at hpowers
    exact WithTop.add_left_cancel (finiteMultiplicity_iff_emultiplicity_ne_top.1 hfinite) hpowers

/-- The distance that `n` steps cover has as many factors of two as `n`. -/
theorem emultiplicity_iterate_sub (ha : 4 ∣ a - 1) (hc : ¬ 2 ∣ c) (x : ℤ) (n : ℕ) :
    emultiplicity 2 ((next a c)^[n] x - x) = emultiplicity 2 (n : ℤ) := by
  obtain ⟨b, hb⟩ := ha
  have hodd : ¬ 2 ∣ (a - 1) * x + c := by
    rw [hb, show 4 * b * x + c = 2 * (2 * b * x) + c by ring]
    omega
  rw [iterate_sub, emultiplicity_mul Int.prime_two, emultiplicity_eq_zero.2 hodd, add_zero,
    emultiplicity_geomSum ⟨b, hb⟩]

/-- Modulo `2 ^ k`, the recurrence is back where it was after the multiples of `2 ^ k` steps only. -/
theorem two_pow_dvd_iterate_sub_iff (ha : 4 ∣ a - 1) (hc : ¬ 2 ∣ c) (x : ℤ) (n k : ℕ) :
    2 ^ k ∣ (next a c)^[n] x - x ↔ 2 ^ k ∣ n := by
  rw [pow_dvd_iff_le_emultiplicity, emultiplicity_iterate_sub ha hc, ← pow_dvd_iff_le_emultiplicity]
  exact_mod_cast Iff.rfl

end Affine

/-! ## Runs of the generator -/

namespace Generator

/-- The generator after `n` draws of 64 bits. -/
def after (g : Generator) (n : ℕ) : Generator :=
  (fun g => g.next64.2)^[n] g

/-- The word of draw `n` of 64 bits, the first draw being draw 0. -/
def word (g : Generator) (n : ℕ) : UInt64 :=
  (g.after n).next64.1

theorem after_succ (g : Generator) (n : ℕ) : g.after (n + 1) = (g.after n).step :=
  Function.iterate_succ_apply' _ n g

theorem after_add (g : Generator) (m n : ℕ) : g.after (m + n) = (g.after m).after n := by
  rw [Nat.add_comm]
  exact Function.iterate_add_apply _ n m g

/-- A draw returns the state that it leaves. -/
theorem word_eq (g : Generator) (n : ℕ) : g.word n = (g.after (n + 1)).state := by
  rw [after_succ]
  rfl

/-- A step is one of the recurrence, up to multiples of `2 ^ 64`. -/
theorem toNat_step (g : Generator) :
    (g.step.state.toNat : ℤ) ≡
      Affine.next multiplier.toNat increment.toNat g.state.toNat [ZMOD 2 ^ 64] := by
  rw [step, UInt64.toNat_add, UInt64.toNat_mul, Nat.mod_add_mod, Affine.next]
  push_cast
  rw [mul_comm]
  exact Int.mod_modEq _ _

/-- The states are the iterates of the affine map, modulo the number of states. -/
theorem toNat_after (g : Generator) (n : ℕ) :
    ((g.after n).state.toNat : ℤ) ≡
      (Affine.next multiplier.toNat increment.toNat)^[n] g.state.toNat [ZMOD 2 ^ 64] := by
  induction n with
  | zero => rfl
  | succ n ih =>
    rw [after_succ, Function.iterate_succ_apply']
    exact (toNat_step _).trans ((ih.mul_left _).add_right _)

theorem state_inj {g h : Generator} : g.state = h.state ↔ g = h := by
  cases g
  cases h
  exact (Generator.mk.injEq _ _).to_iff.symm

theorem eq_of_toNat_modEq {g h : Generator}
    (heq : (g.state.toNat : ℤ) ≡ h.state.toNat [ZMOD 2 ^ 64]) : g = h := by
  have hg : g.state.toNat < 2 ^ 64 := g.state.toNat_lt
  have hh : h.state.toNat < 2 ^ 64 := h.state.toNat_lt
  unfold Int.ModEq at heq
  exact state_inj.1 (UInt64.toNat_inj.1 (by omega))

/-- The generator is back in its state after the multiples of `2 ^ 64` draws only. -/
theorem after_eq_self_iff {g : Generator} {n : ℕ} : g.after n = g ↔ 2 ^ 64 ∣ n := by
  have hmultiplier : (4 : ℤ) ∣ multiplier.toNat - 1 := by decide
  have hincrement : ¬ (2 : ℤ) ∣ increment.toNat := by decide
  rw [← Affine.two_pow_dvd_iterate_sub_iff hmultiplier hincrement g.state.toNat n 64,
    ← Int.modEq_iff_dvd]
  constructor
  · intro h
    have hrun := g.toNat_after n
    rwa [h] at hrun
  · exact fun h => eq_of_toNat_modEq ((g.toNat_after n).trans h.symm)

/-- Two states of a run are the same if a multiple of `2 ^ 64` draws lies between them. -/
theorem after_eq_after_iff {g : Generator} {m n : ℕ} :
    g.after m = g.after n ↔ m ≡ n [MOD 2 ^ 64] := by
  wlog hle : m ≤ n generalizing m n
  · rw [eq_comm, Nat.ModEq.comm]
    exact this (Nat.le_of_not_le hle)
  · obtain ⟨d, rfl⟩ := Nat.exists_eq_add_of_le hle
    rw [after_add, eq_comm, after_eq_self_iff, Nat.modEq_iff_dvd' hle, Nat.add_sub_cancel_left]

/-- Two words of a generator agree exactly a whole number of periods apart. -/
theorem word_eq_word_iff {g : Generator} {m n : ℕ} :
    g.word m = g.word n ↔ m ≡ n [MOD 2 ^ 64] := by
  rw [word_eq, word_eq, state_inj, after_eq_after_iff]
  exact ⟨Nat.ModEq.add_right_cancel' 1, Nat.ModEq.add_right 1⟩

/-- From any draw on, the next `2 ^ 64` draws give every word once. -/
theorem bijOn_word (g : Generator) (start : ℕ) :
    Set.BijOn g.word (Set.Ico start (start + 2 ^ 64)) Set.univ := by
  have hfinite : Finite UInt64 := Finite.of_injective UInt64.toFin fun _ _ => UInt64.toFin_inj.1
  have hinjOn : Set.InjOn g.word (Set.Ico start (start + 2 ^ 64)) := by
    rintro m ⟨hm, hm'⟩ n ⟨hn, hn'⟩ heq
    have hmod := word_eq_word_iff.1 heq
    unfold Nat.ModEq at hmod
    omega
  have hmem : ∀ x : UInt64, start + x.toNat ∈ Set.Ico start (start + 2 ^ 64) := fun x =>
    ⟨Nat.le_add_right _ _, Nat.add_lt_add_left x.toNat_lt _⟩
  refine ⟨Set.mapsTo_univ _ _, hinjOn, fun y _ => ?_⟩
  -- Draws that are numbered by words reach every word, since there are as many of them.
  have hinjective : Function.Injective fun x : UInt64 => g.word (start + x.toNat) :=
    fun x y h => UInt64.toNat_inj.1 (Nat.add_left_cancel (hinjOn (hmem x) (hmem y) h))
  obtain ⟨x, hx⟩ := Finite.injective_iff_surjective.1 hinjective y
  exact ⟨_, hmem x, hx⟩

/-- From every state, the first `2 ^ 64` draws give every word of 64 bits exactly once, and only then
does the state recur; and so it is from any later draw on, whatever seed the generator had. -/
theorem next64_fullPeriod :
    (∀ g : Generator, IsLeast {n | 0 < n ∧ g.after n = g} (2 ^ 64) ∧
      (∀ x, ∃! n, n < 2 ^ 64 ∧ g.word n = x) ∧
      ∀ start, Set.BijOn g.word (Set.Ico start (start + 2 ^ 64)) Set.univ) ∧
    ∀ seed start, Set.InjOn (ofSeed seed).word (Set.Ico start (start + 2 ^ 64)) := by
  refine ⟨fun g => ⟨⟨⟨by decide, after_eq_self_iff.2 dvd_rfl⟩, ?_⟩, fun x => ?_, g.bijOn_word⟩,
    fun seed start => ((ofSeed seed).bijOn_word start).injOn⟩
  · rintro n ⟨hpos, hn⟩
    exact Nat.le_of_dvd hpos (after_eq_self_iff.1 hn)
  · obtain ⟨n, hn, hword⟩ := (g.bijOn_word 0).surjOn (Set.mem_univ x)
    rw [Nat.zero_add] at hn
    refine ⟨n, ⟨hn.2, hword⟩, ?_⟩
    rintro m ⟨hm, hsame⟩
    have hmod := word_eq_word_iff.1 (hsame.trans hword.symm)
    exact hmod.eq_of_lt_of_lt hm hn.2

end Generator

end LeadScoring
