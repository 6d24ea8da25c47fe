/-!
# The random generator of training

All random choices of training come from a linear congruential generator over 64-bit words, so
that a seed decides the fitted forest.  The bounded draws of a shuffle or a sample are kept apart
from the arrangement they produce: the draws are a list of numbers, and the arrangement is a
function of that list.

Main definitions:

- `mix64`, `treeSeed`: scattering of seeds.
- `Generator`: the state, with `next64`, `next32` and the bounded `below`.
- `shuffleDraws` and `shuffled`: the exchanges of a shuffle and their effect.
- `sampleDraws` and `sampled`: the exchanges of a sample without replacement and their effect.
-/

namespace LeadScoring

/-! ## Seeds -/

/-- A scattering of the 64-bit words: an addition, then shifts and multiplications in turn. -/
def mix64 (z : UInt64) : UInt64 :=
  let z := z + 0x9E3779B97F4A7C15
  let z := (z ^^^ (z >>> 30)) * 0xBF58476D1CE4E5B9
  let z := (z ^^^ (z >>> 27)) * 0x94D049BB133111EB
  z ^^^ (z >>> 31)

/-- The seed of a tree by the seed of its forest and its index, whatever was fitted before. -/
def treeSeed (seed index : UInt64) : UInt64 :=
  mix64 (seed ^^^ mix64 index)

/-! ## The generator -/

/-- A generator between two draws. -/
structure Generator where
  state : UInt64
deriving DecidableEq, Repr, Inhabited

namespace Generator

/-- The factor of a step. -/
def multiplier : UInt64 := 6364136223846793005

/-- The summand of a step. -/
def increment : UInt64 := 1442695040888963407

/-- The generator one step on. -/
def step (g : Generator) : Generator :=
  ⟨g.state * multiplier + increment⟩

/-- The generator of a seed. -/
def ofSeed (seed : UInt64) : Generator :=
  step ⟨mix64 seed⟩

/-- A 64-bit word, which is the next state itself. -/
def next64 (g : Generator) : UInt64 × Generator :=
  (g.step.state, g.step)

/-- A 32-bit word: the upper half of the next state. -/
def next32 (g : Generator) : UInt32 × Generator :=
  ((g.step.state >>> 32).toUInt32, g.step)

/-- The number below `bound` that a 32-bit word is scaled to.  The product is taken in 64 bits. -/
def scaled (word : UInt32) (bound : Nat) : Nat :=
  (word.toNat * bound % 0x10000000000000000) / 0x100000000

/-- A number below `bound`; nothing is drawn for the bound zero. -/
def below (g : Generator) (bound : Nat) : Nat × Generator :=
  if bound = 0 then (0, g) else (scaled g.next32.1 bound, g.next32.2)

/-! ## Shuffling -/

/-- The draws of a shuffle of `n` items: a number up to `i` for every `i` from `n - 1` down
to 1. -/
def shuffleDraws (g : Generator) : Nat → List Nat × Generator
  | 0 => ([], g)
  | 1 => ([], g)
  | n + 2 =>
    let (j, g) := g.below (n + 2)
    let (js, g) := g.shuffleDraws (n + 1)
    (j :: js, g)

end Generator

variable {β : Type}

/-- Exchanges position `i` with the first draw, `i - 1` with the second, and so on. -/
def exchangeDown (items : Array β) (i : Nat) : List Nat → Array β
  | [] => items
  | j :: js => exchangeDown (items.swapIfInBounds i j) (i - 1) js

/-- The arrangement that the draws of a shuffle give to a list. -/
def shuffled (draws : List Nat) (items : List β) : List β :=
  (exchangeDown items.toArray (items.length - 1) draws).toList

namespace Generator

/-- A list in random order. -/
def shuffle (g : Generator) (items : List β) : List β × Generator :=
  let (draws, g) := g.shuffleDraws items.length
  (shuffled draws items, g)

/-! ## Sampling -/

/-- The draws of a sample: `k` numbers, the first below `n`, each later bound one less. -/
def sampleDraws (g : Generator) : Nat → Nat → List Nat × Generator
  | _, 0 => ([], g)
  | n, k + 1 =>
    let (d, g) := g.below n
    let (ds, g) := g.sampleDraws (n - 1) k
    (d :: ds, g)

end Generator

/-- Exchanges position `i` with the one that stands the first draw after it, `i + 1` with the one
that stands the second draw after it, and so on. -/
def exchangeUp (items : Array β) (i : Nat) : List Nat → Array β
  | [] => items
  | d :: ds => exchangeUp (items.swapIfInBounds i (i + d)) (i + 1) ds

/-- The selection from the numbers below `n` that the draws of a sample make. -/
def sampled (n : Nat) (draws : List Nat) : List Nat :=
  (exchangeUp (Array.range n) 0 draws).toList.take draws.length

namespace Generator

/-- Distinct numbers below `n` in the order of their draws: `k` of them, or all if there are
fewer. -/
def sample (g : Generator) (n k : Nat) : List Nat × Generator :=
  let (draws, g) := g.sampleDraws n (min k n)
  (sampled n draws, g)

end Generator

end LeadScoring
