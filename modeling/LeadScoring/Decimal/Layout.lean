import LeadScoring.Decimal.Shortest

/-!
# Layouts of numbers as text

All forms write the shortest digits of a double.  They differ in where an exponent begins, in
whether a whole number keeps a fraction, and in the words for what is not a number.  A `Layout`
holds these decisions, and `Layout.write` applies them.
-/

namespace LeadScoring

/-- The decisions of one text form of numbers. -/
structure Layout where
  tie : Tie
  /-- Whether a number whose first digit stands at `10 ^ e` is written without an exponent. -/
  positional : Int → Bool
  /-- Whether a whole number ends in `.0`. -/
  keepsFraction : Bool
  notANumber : String
  infinity : String
  negativeInfinity : String

namespace Layout

/-- JSON numbers: positional from `10 ^ -5` up to below `10 ^ 16`, whole numbers with `.0`. -/
def json : Layout where
  tie := .toEven
  positional e := decide (-5 ≤ e) && decide (e < 16)
  keepsFraction := true
  notANumber := "null"
  infinity := "null"
  negativeInfinity := "null"

/-- Numbers in sentences: never an exponent and no `.0`. -/
def plain : Layout where
  tie := .up
  positional _ := true
  keepsFraction := false
  notANumber := "NaN"
  infinity := "inf"
  negativeInfinity := "-inf"

/-- Numbers in configuration files: never an exponent, whole numbers with `.0`. -/
def config : Layout where
  tie := .up
  positional _ := true
  keepsFraction := true
  notANumber := "nan"
  infinity := "inf"
  negativeInfinity := "-inf"

/-- The digits without an exponent, the last one standing at `10 ^ exponent`. -/
def positionalText (keepsFraction : Bool) (digits : List Char) (exponent : Int) : List Char :=
  if 0 ≤ exponent then
    digits ++ List.replicate exponent.toNat '0' ++ (if keepsFraction then ['.', '0'] else [])
  else
    let places := (-exponent).toNat
    if places < digits.length then
      digits.take (digits.length - places) ++ '.' :: digits.drop (digits.length - places)
    else
      '0' :: '.' :: List.replicate (places - digits.length) '0' ++ digits

/-- The digits with a point behind the first one and the exponent of ten that this one stands
at. -/
def scientificText (digits : List Char) (leading : Int) : List Char :=
  let mantissa :=
    match digits with
    | d :: r@(_ :: _) => d :: '.' :: r
    | ds => ds
  let sign := if leading < 0 then '-' else '+'
  mantissa ++ 'e' :: sign :: Nat.toDigits 10 leading.natAbs

/-- The text of a positive decimal. -/
def decimalText (layout : Layout) (d : Decimal) : List Char :=
  let digits := Nat.toDigits 10 d.digits
  let leading := d.exponent + digits.length - 1
  if layout.positional leading then positionalText layout.keepsFraction digits d.exponent
  else scientificText digits leading

/-- The text of a double. -/
def write (layout : Layout) (x : Float) : String :=
  let negative := Binary64.isNegative x
  if Binary64.isNaN x then layout.notANumber
  else if !Binary64.isFinite x then
    if negative then layout.negativeInfinity else layout.infinity
  else
    let magnitude :=
      if Binary64.significand x = 0 then
        if layout.keepsFraction then ['0', '.', '0'] else ['0']
      else layout.decimalText (Decimal.shortest x layout.tie)
    String.ofList (if negative then '-' :: magnitude else magnitude)

end Layout

end LeadScoring
