import LeadScoring.Scalar
import Mathlib

/-!
# Checked numbers

Rational numbers divide by zero and give zero.  Checked numbers do not: whatever has been computed
by a division by zero is undefined and stays so.  A definition that gives numbers over checked
arguments has therefore not divided by zero on its way.

Main results:

- Definition `Checked`: rational numbers and what is undefined, with the instance of `Scalar`.
- Theorems `Checked.add_number`, `Checked.div_number` and so on: the operations on numbers.
-/

namespace LeadScoring

/-- A rational number, or nothing once something has been divided by zero. -/
inductive Checked where
  | number (x : ℚ)
  | undefined
deriving DecidableEq

namespace Checked

/-- An operation that every two numbers have a result of. -/
def lift (f : ℚ → ℚ → ℚ) : Checked → Checked → Checked
  | number x, number y => number (f x y)
  | _, _ => undefined

/-- The quotient of two numbers unless the second one is zero. -/
def div : Checked → Checked → Checked
  | number x, number y => if y = 0 then undefined else number (x / y)
  | _, _ => undefined

/-- A comparison that holds between numbers only. -/
def compare (f : ℚ → ℚ → Bool) : Checked → Checked → Bool
  | number x, number y => f x y
  | _, _ => false

instance : Scalar Checked where
  zero := number 0
  one := number 1
  add := lift (· + ·)
  sub := lift (· - ·)
  mul := lift (· * ·)
  div := div
  le x y := compare (fun x y => decide (x ≤ y)) x y = true
  lt x y := compare (fun x y => decide (x < y)) x y = true
  beq x y := decide (x = y)
  natCast n := number n
  ofScientific m s e := number (OfScientific.ofScientific m s e)
  decLe _ _ := inferInstanceAs (Decidable (_ = true))
  decLt _ _ := inferInstanceAs (Decidable (_ = true))
  sumStart := number 0
  resolution := number Scalar.resolution
  isFinite x := decide (x ≠ undefined)
  totalLe := compare Scalar.totalLe
  magnitude := fun
    | number x => number (Scalar.magnitude x)
    | undefined => undefined
  roundNat := fun
    | number x => Scalar.roundNat x
    | undefined => 0
  ofFloat x := number (Scalar.ofFloat x)

section Numbers

variable {x y : ℚ} {n : ℕ}

theorem zero_eq : (0 : Checked) = number 0 :=
  rfl

theorem natCast_eq : (n : Checked) = number n :=
  rfl

theorem add_number : number x + number y = number (x + y) :=
  rfl

theorem sub_number : number x - number y = number (x - y) :=
  rfl

theorem mul_number : number x * number y = number (x * y) :=
  rfl

theorem div_number (hy : y ≠ 0) : number x / number y = number (x / y) :=
  if_neg hy

theorem bne_zero_iff : (number x != 0) = true ↔ x ≠ 0 := by
  have hbne : (number x != 0) = !decide (number x = number 0) := rfl
  rw [hbne, Bool.not_eq_true', decide_eq_false_iff_not, number.injEq]

end Numbers

end Checked

end LeadScoring
