import LeadScoring.Binary64

/-!
# Scalar - The arithmetic that models and trainers compute with

Growing trees, scoring and attribution use a few operations of ordered arithmetic.  The class
below names them once, so that every such definition exists both over doubles, where it runs, and
over the rational numbers, where its laws can be stated without rounding.

Main definitions:

- `Scalar`: the operations.
- `Scalar.sum`, `Scalar.mean`: accumulation from left to right, in the order of the list.
- The instances for `Float` and `Rat`.
-/

namespace LeadScoring

/-- Numbers that a model can be fitted and evaluated with. -/
class Scalar (α : Type) extends Zero α, One α, Add α, Sub α, Mul α, Div α, LE α, LT α, BEq α,
    NatCast α, OfScientific α where
  decLe : (x y : α) → Decidable (x ≤ y)
  decLt : (x y : α) → Decidable (x < y)
  /-- The value a sum starts from.  It adds nothing to any value, zeros of either sign included. -/
  sumStart : α
  /-- Gains and impurities at or below this size count as none. -/
  resolution : α
  /-- Whether the value is a number on the real line. -/
  isFinite : α → Bool
  /-- A total order on all values, which sorting uses. -/
  totalLe : α → α → Bool
  /-- The value without its sign. -/
  magnitude : α → α
  /-- The nearest whole number, a half going up, and zero below zero. -/
  roundNat : α → Nat
  /-- The value of an encoded lead entry. -/
  ofFloat : Float → α

-- A number type that is named keeps the operations that it already has.
attribute [instance (10)] Scalar.toZero Scalar.toOne Scalar.toAdd Scalar.toSub Scalar.toMul
  Scalar.toDiv Scalar.toLE Scalar.toLT Scalar.toBEq Scalar.toNatCast Scalar.toOfScientific

namespace Scalar

variable {α : Type} [Scalar α]

instance (priority := low) (x y : α) : Decidable (x ≤ y) :=
  Scalar.decLe x y

instance (priority := low) (x y : α) : Decidable (x < y) :=
  Scalar.decLt x y

instance (priority := low) : Inhabited α :=
  ⟨0⟩

/-- The sum of a list from left to right. -/
def sum (xs : List α) : α :=
  xs.foldl (· + ·) sumStart

/-- The sum of a list divided by its length. -/
def mean (xs : List α) : α :=
  sum xs / (xs.length : α)

/-- The smaller of a value and one. -/
def capAtOne (x : α) : α :=
  if x < 1 then x else 1

end Scalar

/-- Doubles, with the total order of their bit patterns. -/
instance : Scalar Float where
  zero := 0.0
  one := 1.0
  natCast := Float.ofNat
  decLe := inferInstance
  decLt := inferInstance
  sumStart := -0.0
  resolution := Float.ofScientific 2220446049250313 true 31
  isFinite := Binary64.isFinite
  totalLe x y := decide (Binary64.orderKey x ≤ Binary64.orderKey y)
  magnitude := Float.abs
  roundNat := Binary64.roundNat
  ofFloat := id

/-- Rational numbers: the same operations without rounding. -/
instance : Scalar Rat where
  zero := mkRat 0 1
  one := mkRat 1 1
  toAdd := Rat.instAdd
  toSub := Rat.instSub
  toMul := Rat.instMul
  toDiv := Rat.instDiv
  toLE := Rat.instLE
  toLT := Rat.instLT
  toBEq := instBEqOfDecidableEq
  toNatCast := Rat.instNatCast
  toOfScientific := Rat.instOfScientific
  decLe := Rat.instDecidableLe
  decLt := Rat.instDecidableLt
  sumStart := mkRat 0 1
  resolution := mkRat 1 4503599627370496
  isFinite _ := true
  totalLe x y := !Rat.blt y x
  magnitude x := mkRat x.num.natAbs x.den
  roundNat x := (Rat.floor (Rat.add x (mkRat 1 2))).toNat
  ofFloat := Binary64.toRat

end LeadScoring
