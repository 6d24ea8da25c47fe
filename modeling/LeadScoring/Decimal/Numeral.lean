import LeadScoring.Decimal.Shortest

/-!
# Reading decimal numerals

A numeral is a row of digits with at most one point and an optional exponent.  This file splits
such a text into its whole, fraction and exponent parts, says which double it denotes, and reads
the free form that cells and string values use: an optional sign, then a numeral or one of the
words for infinity and not-a-number.
-/

namespace LeadScoring

/-- The parts of a numeral as written. -/
structure Numeral where
  whole : List Char
  fraction : List Char
  /-- The exponent with its sign, zero when absent. -/
  exponent : Int
deriving DecidableEq, Repr

namespace Numeral

/-- The number that a row of decimal digits denotes. -/
def natOfDigits (digits : List Char) : Nat :=
  digits.foldl (fun n c => 10 * n + (c.toNat - '0'.toNat)) 0

/-- Splits off the longest run of decimal digits. -/
def digitRun (cs : List Char) : List Char × List Char :=
  (cs.takeWhile Char.isDigit, cs.dropWhile Char.isDigit)

/-- Splits off a leading sign; the flag tells a minus. -/
def takeSign : List Char → Bool × List Char
  | '-' :: cs => (true, cs)
  | '+' :: cs => (false, cs)
  | cs => (false, cs)

/-- An exponent behind its letter: an optional sign and digits up to the end. -/
def readExponent (cs : List Char) : Option Int :=
  let (negative, cs) := takeSign cs
  match digitRun cs with
  | ([], _) => none
  | (digits, []) =>
    let n : Int := natOfDigits digits
    some (if negative then -n else n)
  | _ => none

/-- An optional fraction and an optional exponent behind the whole digits. -/
def readTail (whole : List Char) (cs : List Char) : Option Numeral :=
  let (fraction, cs) :=
    match cs with
    | '.' :: cs => digitRun cs
    | cs => ([], cs)
  match cs with
  | [] => some ⟨whole, fraction, 0⟩
  | c :: cs =>
    if c = 'e' || c = 'E' then (readExponent cs).map fun e => ⟨whole, fraction, e⟩ else none

/-- A numeral without a sign.  A digit must stand before or behind the point. -/
def read (cs : List Char) : Option Numeral :=
  let (whole, cs) := digitRun cs
  match readTail whole cs with
  | some n => if n.whole.isEmpty && n.fraction.isEmpty then none else some n
  | none => none

/-- The numeral with all its digits in front of the exponent. -/
def toDecimal (n : Numeral) : Decimal :=
  ⟨natOfDigits (n.whole ++ n.fraction), n.exponent - n.fraction.length⟩

end Numeral

namespace Decimal

/-- The double nearest to a decimal.  The two early exits decide the cases whose power of ten
alone puts them beyond the largest or below half the smallest double. -/
def toFloat (d : Decimal) : Float :=
  let leading := d.exponent + (Nat.toDigits 10 d.digits).length
  if d.digits = 0 || leading < -330 then 0.0
  else if 330 < leading then Float.ofScientific 1 false 400
  else if 0 ≤ d.exponent then Float.ofScientific (d.digits * Nat.pow 10 d.exponent.toNat) false 0
  else Float.ofScientific d.digits true (-d.exponent).toNat

end Decimal

namespace Numeral

/-- The double that a numeral denotes, with the sign in front. -/
def toFloat (negative : Bool) (n : Numeral) : Float :=
  if negative then -n.toDecimal.toFloat else n.toDecimal.toFloat

/-- The double that a special word denotes, in any letter case. -/
def specialValue? (cs : List Char) : Option Float :=
  let word := String.ofList (cs.map Char.toLower)
  if word == "inf" || word == "infinity" then some (Float.ofScientific 1 false 400)
  else if word == "nan" then some (0.0 / 0.0)
  else none

/-- The double written as a whole text: an optional sign, then a numeral or a special word. -/
def readFloat? (text : String) : Option Float :=
  let (negative, cs) := takeSign text.toList
  match specialValue? cs with
  | some x => some (if negative then -x else x)
  | none => (read cs).map (toFloat negative)

end Numeral

end LeadScoring
