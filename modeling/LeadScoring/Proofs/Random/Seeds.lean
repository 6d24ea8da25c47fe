import LeadScoring.Random
import Mathlib.Data.Set.Function
import Mathlib.Logic.Function.Basic

/-!
# Distinct seeds

A seed is scattered by steps that can be taken back: a constant is added, the word is multiplied by
an odd constant, or its upper bits are added to the lower ones without carries.  So no two seeds are
scattered to one word, and neither the trees of a forest nor the forests of two seeds share a
generator.

Main results:

- Theorem `Word.xorShift_bijective`: adding a word's upper bits to its lower ones can be taken back.
- Theorem `Word.mul_bijective`: so can multiplying by a word that has an inverse.
- Theorem `mix64_bijective`: scattering is a bijection of the words.
- Theorem `Generator.ofSeed_bijective`: every state is the first one of exactly one seed.
- Theorem `treeSeed_bijective`: what holds of the seeds of trees and of their generators.
-/

namespace LeadScoring

open Function (Bijective)

/-! ## Steps that can be taken back -/

namespace Word

/-- A word with its bits added, without carries, to those that stand `s` places lower. -/
def xorShift (s x : UInt64) : UInt64 :=
  x ^^^ (x >>> s)

/-- The word whose `xorShift` is given, if no bit stays after three shifts. -/
def unshift (s x : UInt64) : UInt64 :=
  x ^^^ (x >>> s) ^^^ (x >>> s >>> s)

/-- Three shifts by at least 22 places leave nothing. -/
theorem shiftRight_thrice {s : UInt64} (hlow : 22 ≤ s.toNat) (hhigh : s.toNat < 64) (x : UInt64) :
    x >>> s >>> s >>> s = 0 := by
  have hword : x.toNat < 2 ^ 64 := x.toNat_lt
  have hpow : 2 ^ 64 ≤ 2 ^ (s.toNat + s.toNat + s.toNat) :=
    Nat.pow_le_pow_right (by omega) (by omega)
  apply UInt64.toNat_inj.1
  simp only [UInt64.toNat_shiftRight, Nat.mod_eq_of_lt hhigh, ← Nat.shiftRight_add]
  rw [Nat.shiftRight_eq_div_pow, Nat.div_eq_of_lt (by omega)]
  rfl

/-- Adding the bits of a word to the lower ones can be taken back. -/
theorem xorShift_bijective {s : UInt64} (hlow : 22 ≤ s.toNat) (hhigh : s.toNat < 64) :
    Bijective (xorShift s) := by
  rw [Function.bijective_iff_has_inverse]
  refine ⟨unshift s, fun x => ?_, fun x => ?_⟩
  · -- Shifts distribute, so all terms but the first and the last occur twice.
    simp only [unshift, xorShift, UInt64.shiftRight_xor, shiftRight_thrice hlow hhigh]
    simp [UInt64.xor_assoc]
  · simp only [unshift, xorShift, UInt64.shiftRight_xor, shiftRight_thrice hlow hhigh,
      UInt64.xor_zero]
    rw [UInt64.xor_assoc x, UInt64.xor_assoc, UInt64.xor_self, UInt64.xor_zero]

/-- Multiplying by a word that has an inverse can be taken back. -/
theorem mul_bijective {a b : UInt64} (h : a * b = 1) : Bijective (· * a) := by
  rw [Function.bijective_iff_has_inverse]
  refine ⟨(· * b), fun x => ?_, fun x => ?_⟩
  · change x * a * b = x
    rw [UInt64.mul_assoc, h, UInt64.mul_one]
  · change x * b * a = x
    rw [UInt64.mul_assoc, UInt64.mul_comm b, h, UInt64.mul_one]

theorem add_bijective (a : UInt64) : Bijective (· + a) :=
  Function.bijective_iff_has_inverse.2
    ⟨(· - a), fun x => UInt64.add_sub_cancel x a, fun x => UInt64.sub_add_cancel x a⟩

theorem xor_bijective (a : UInt64) : Bijective (a ^^^ ·) := by
  have hback : Function.Involutive (a ^^^ ·) := fun x => by
    change a ^^^ (a ^^^ x) = x
    rw [← UInt64.xor_assoc, UInt64.xor_self, UInt64.zero_xor]
  exact hback.bijective

end Word

/-! ## Scattered seeds -/

/-- Scattering is a bijection of the words: its shifts are by 30, 27 and 31 places, and both of its
factors have an inverse. -/
theorem mix64_bijective : Bijective mix64 := by
  have hfirst : (0xBF58476D1CE4E5B9 : UInt64) * 0x96DE1B173F119089 = 1 := by decide
  have hsecond : (0x94D049BB133111EB : UInt64) * 0x319642B2D24D8EC3 = 1 := by decide
  have hsteps := (Word.xorShift_bijective (s := 31) (by decide) (by decide)).comp <|
    (Word.mul_bijective hsecond).comp <|
    (Word.xorShift_bijective (s := 27) (by decide) (by decide)).comp <|
    (Word.mul_bijective hfirst).comp <|
    (Word.xorShift_bijective (s := 30) (by decide) (by decide)).comp <|
    Word.add_bijective 0x9E3779B97F4A7C15
  exact hsteps

namespace Generator

/-- A step of the generator is a bijection of the states. -/
theorem step_bijective : Bijective step := by
  have hmultiplier : multiplier * 0xC097EF87329E28A5 = 1 := by decide
  have hwords := (Word.add_bijective increment).comp (Word.mul_bijective hmultiplier)
  constructor
  · rintro ⟨x⟩ ⟨y⟩ h
    exact congrArg Generator.mk (hwords.1 (congrArg state h))
  · rintro ⟨y⟩
    obtain ⟨x, hx⟩ := hwords.2 y
    exact ⟨⟨x⟩, congrArg Generator.mk hx⟩

/-- Every state is the first one of exactly one seed. -/
theorem ofSeed_bijective : Bijective ofSeed := by
  have hstart : Bijective Generator.mk := ⟨fun _ _ h => congrArg state h, fun g => ⟨g.state, rfl⟩⟩
  exact step_bijective.comp (hstart.comp mix64_bijective)

end Generator

/-! ## Seeds of trees -/

/-- For every seed of a forest, different tree indices have different tree seeds and generators that
start in different states, also where the indices are the numbers of trees; and for every index,
different forests have different tree seeds.  All of these maps reach every word and every state. -/
theorem treeSeed_bijective :
    Bijective mix64 ∧ Bijective Generator.ofSeed ∧
      (∀ seed, Bijective (treeSeed seed) ∧
        Bijective (fun index => Generator.ofSeed (treeSeed seed index)) ∧
        Set.InjOn (fun index : ℕ => Generator.ofSeed (treeSeed seed (UInt64.ofNat index)))
          {index | index < UInt64.size}) ∧
      ∀ index, Bijective fun seed => treeSeed seed index := by
  have hseeds : ∀ seed, Bijective (treeSeed seed) := fun seed =>
    mix64_bijective.comp ((Word.xor_bijective seed).comp mix64_bijective)
  have hstates : ∀ seed, Bijective fun index => Generator.ofSeed (treeSeed seed index) :=
    fun seed => Generator.ofSeed_bijective.comp (hseeds seed)
  refine ⟨mix64_bijective, Generator.ofSeed_bijective, fun seed => ⟨hseeds seed, hstates seed, ?_⟩,
    fun index => ?_⟩
  · intro i hi j hj h
    have hindex := congrArg UInt64.toNat ((hstates seed).1 h)
    rwa [UInt64.toNat_ofNat_of_lt' hi, UInt64.toNat_ofNat_of_lt' hj] at hindex
  · have hforests := mix64_bijective.comp (Word.xor_bijective (mix64 index))
    simp only [treeSeed, UInt64.xor_comm _ (mix64 index)]
    exact hforests

end LeadScoring
