import LeadScoring.Binary64

/-!
# Shortest decimals of a double

A double is written with the fewest decimal digits that read back to it.  The reals that round to
a given double form an interval, and a decimal with its last digit at `10 ^ s` is a point of the
grid of multiples of `10 ^ s`.  The grids are tried from coarse to fine; on the first one that
meets the interval one of the value's two neighbours is inside, because the interval contains the
value.

Main definitions:

- `Decimal`: a numeral `digits * 10 ^ exponent`.
- `Window`: the interval of reals that round to a double, as integers over one denominator.
- `Window.onGrid`: the grid point nearest to the value, if the interval holds one.
- `Decimal.shortest`: the decimal of the first grid with a point inside.
-/

namespace LeadScoring

/-- The numeral `digits * 10 ^ exponent`. -/
structure Decimal where
  digits : Nat
  exponent : Int
deriving DecidableEq, Repr

/-- Which of two equally near decimals is taken. -/
inductive Tie where
  /-- The one whose last digit is even. -/
  | toEven
  /-- The larger one. -/
  | up
deriving DecidableEq, Repr

/-- The reals that round to a positive double: its two ends and the double itself, over a common
denominator.  The ends belong to the interval when the significand is even. -/
structure Window where
  low : Nat
  value : Nat
  high : Nat
  denominator : Nat
  closed : Bool
deriving DecidableEq, Repr

namespace Window

/-- The window of a positive finite double, in quarters of the spacing above it. -/
def ofFloat (x : Float) : Window :=
  let m := Binary64.significand x
  let q := Binary64.scale x - 2
  let low := 4 * m - (if Binary64.hasNarrowLowerGap x then 1 else 2)
  let closed := m % 2 == 0
  if 0 ≤ q then
    let unit := 1 <<< q.toNat
    ⟨low * unit, 4 * m * unit, (4 * m + 2) * unit, 1, closed⟩
  else
    ⟨low, 4 * m, 4 * m + 2, 1 <<< (-q).toNat, closed⟩

/-- The same window measured in units of `10 ^ s`. -/
def inUnits (w : Window) (s : Int) : Window :=
  if 0 ≤ s then
    { w with denominator := w.denominator * Nat.pow 10 s.toNat }
  else
    let unit := Nat.pow 10 (-s).toNat
    { w with low := w.low * unit, value := w.value * unit, high := w.high * unit }

/-- Whether a whole number lies in the window. -/
def contains (w : Window) (k : Nat) : Bool :=
  if w.closed then decide (w.low ≤ k * w.denominator) && decide (k * w.denominator ≤ w.high)
  else decide (w.low < k * w.denominator) && decide (k * w.denominator < w.high)

/-- The whole number inside the window that is nearest to the value, if there is one. -/
def nearestInside (w : Window) (tie : Tie) : Option Nat :=
  let below := w.value / w.denominator
  match w.contains below, w.contains (below + 1) with
  | false, false => none
  | true, false => some below
  | false, true => some (below + 1)
  | true, true =>
    match compare (2 * w.value) ((2 * below + 1) * w.denominator) with
    | .lt => some below
    | .gt => some (below + 1)
    | .eq =>
      match tie with
      | .toEven => some (if below % 2 = 0 then below else below + 1)
      | .up => some (below + 1)

/-- The multiple of `10 ^ s` inside the window that is nearest to the value. -/
def onGrid (w : Window) (s : Int) (tie : Tie) : Option Nat :=
  (w.inUnits s).nearestInside tie

/-- The first grid with a point inside, trying the given number of grids downwards from
`10 ^ s`. -/
def firstGrid (w : Window) (tie : Tie) : Nat → Int → Decimal
  | 0, s => ⟨(w.inUnits s).value / (w.inUnits s).denominator, s⟩
  | n + 1, s =>
    match w.onGrid s tie with
    | some k => ⟨k, s⟩
    | none => w.firstGrid tie n (s - 1)

end Window

namespace Decimal

/-- A power of ten above a positive finite double, from the binary length of its significand. -/
def gridAbove (x : Float) : Int :=
  let length : Int := Nat.log2 (Binary64.significand x) + 1 + Binary64.scale x
  (length * 30103).fdiv 100000 + 2

/-- The shortest decimal of a positive finite double.  Seventeen digits always suffice, and the
first grids tried stand above the value. -/
def shortest (x : Float) (tie : Tie) : Decimal :=
  (Window.ofFloat x).firstGrid tie 22 (gridAbove x)

end Decimal

end LeadScoring
