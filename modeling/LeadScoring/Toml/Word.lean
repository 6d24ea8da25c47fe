import LeadScoring.Json.Literal
import LeadScoring.Toml.Table

/-!
# TOML words

A value that is no string, array or table is a single word: a truth value, an integer in one of
four bases, a float, or a date or time.  Underscores may stand between two digits.
-/

namespace LeadScoring.Toml

/-! ## Integers and floats -/

/-- The digits of a word that may have underscores between two digits. -/
def plainDigits? (isDigit : Char → Bool) : List Char → Option (List Char)
  | [] => none
  | [c] => if isDigit c then some [c] else none
  | c :: '_' :: rest =>
    if isDigit c then (plainDigits? isDigit rest).map (c :: ·) else none
  | c :: rest => if isDigit c then (plainDigits? isDigit rest).map (c :: ·) else none

/-- The digits of a decimal whole number, which has no needless zero. -/
def wholeDigits? (cs : List Char) : Option (List Char) :=
  match plainDigits? Char.isDigit cs with
  | some ds => if cs.head? = some '0' && ds.length ≠ 1 then none else some ds
  | none => none

/-- An integer that fits a signed 64-bit word. -/
def integer? (i : Int) : Option Node :=
  if -(0x8000000000000000 : Int) ≤ i ∧ i < (0x8000000000000000 : Int) then some (.integer i)
  else none

/-- The number of digits in a base. -/
def natOfBase (base : Nat) (digits : List Char) : Nat :=
  digits.foldl (fun n c => base * n + (Json.hexValue? c).getD 0) 0

/-- Whether a character is a digit of a base up to sixteen. -/
def isDigitOf (base : Nat) (c : Char) : Bool :=
  match Json.hexValue? c with
  | some d => decide (d < base)
  | none => false

/-- An integer with a base letter, behind both characters of its mark. -/
def basedInteger? (base : Nat) (cs : List Char) : Option Node :=
  (plainDigits? (isDigitOf base) cs).bind fun digits => integer? (natOfBase base digits)

/-- A decimal integer. -/
def decimalInteger? (cs : List Char) : Option Node :=
  let (negative, digits) := Numeral.takeSign cs
  (wholeDigits? digits).bind fun digits =>
    let n : Int := Numeral.natOfDigits digits
    integer? (if negative then -n else n)

/-- The exponent of a float: an optional sign and digits. -/
def exponent? (cs : List Char) : Option Int :=
  let (negative, digits) := Numeral.takeSign cs
  (plainDigits? Char.isDigit digits).map fun digits =>
    let n : Int := Numeral.natOfDigits digits
    if negative then -n else n

/-- Whether a character begins an exponent. -/
def isExponentLetter (c : Char) : Bool :=
  c == 'e' || c == 'E'

/-- The numeral of a float: whole digits with a fraction, an exponent or both. -/
def floatNumeral? (cs : List Char) : Option Numeral :=
  let mantissa := cs.takeWhile fun c => !isExponentLetter c
  let whole := mantissa.takeWhile fun c => c != '.'
  let hasPoint := mantissa.contains '.'
  let fraction := (mantissa.dropWhile fun c => c != '.').drop 1
  let exponent :=
    match cs.dropWhile fun c => !isExponentLetter c with
    | _ :: digits => (exponent? digits).map some
    | [] => some none
  match wholeDigits? whole, exponent with
  | some ds, some e =>
    if hasPoint then
      (plainDigits? Char.isDigit fraction).map fun fs => ⟨ds, fs, e.getD 0⟩
    else
      match e with
      | some e => some ⟨ds, [], e⟩
      | none => none
  | _, _ => none

/-- A float with its sign.  One that is too large is refused. -/
def float? (cs : List Char) : Option Node :=
  let (negative, unsigned) := Numeral.takeSign cs
  if unsigned = ['i', 'n', 'f'] then
    some (.float (if negative then -(1.0 / 0.0) else 1.0 / 0.0))
  else if unsigned = ['n', 'a', 'n'] then some (.float (0.0 / 0.0))
  else
    match floatNumeral? unsigned with
    | some n =>
      let x := n.toFloat negative
      if !negative && !Binary64.isFinite x then none else some (.float x)
    | none => none

/-! ## Dates and times -/

/-- The number of exactly so many digits at the start of a text. -/
def fixedDigits? (count : Nat) (cs : List Char) : Option (Nat × List Char) :=
  let digits := cs.take count
  if digits.length = count && digits.all Char.isDigit then
    some (Numeral.natOfDigits digits, cs.drop count)
  else none

/-- The days of a month. -/
def daysIn (year month : Nat) : Nat :=
  if month = 2 then
    if year % 4 = 0 && (year % 100 ≠ 0 || year % 400 = 0) then 29 else 28
  else if month = 4 || month = 6 || month = 9 || month = 11 then 30
  else 31

/-- A character that has to come next. -/
def expect? (c : Char) : List Char → Option (List Char)
  | d :: rest => if c = d then some rest else none
  | [] => none

/-- What follows a date at the start of a text. -/
def afterDate? (cs : List Char) : Option (List Char) := do
  let (year, cs) ← fixedDigits? 4 cs
  let cs ← expect? '-' cs
  let (month, cs) ← fixedDigits? 2 cs
  let cs ← expect? '-' cs
  let (day, cs) ← fixedDigits? 2 cs
  if 1 ≤ month ∧ month ≤ 12 ∧ 1 ≤ day ∧ day ≤ daysIn year month then some cs else none

/-- What follows hours and minutes at the start of a text. -/
def afterMinutes? (cs : List Char) : Option (List Char) := do
  let (hour, cs) ← fixedDigits? 2 cs
  let cs ← expect? ':' cs
  let (minute, cs) ← fixedDigits? 2 cs
  if hour ≤ 23 ∧ minute ≤ 59 then some cs else none

/-- What follows a time of day at the start of a text. -/
def afterTime? (cs : List Char) : Option (List Char) := do
  let cs ← afterMinutes? cs
  let cs ← expect? ':' cs
  let (second, cs) ← fixedDigits? 2 cs
  if 60 < second then none
  match cs with
  | '.' :: rest =>
    let (digits, rest) := Numeral.digitRun rest
    if digits.isEmpty then none else some rest
  | cs => some cs

/-- Whether a text is the distance to universal time, or nothing. -/
def isOffset : List Char → Bool
  | [] => true
  | ['Z'] => true
  | ['z'] => true
  | '+' :: cs => afterMinutes? cs == some []
  | '-' :: cs => afterMinutes? cs == some []
  | _ => false

/-- Whether a text is a time of day with an optional offset. -/
def isTimeWithOffset (cs : List Char) : Bool :=
  match afterTime? cs with
  | some rest => isOffset rest
  | none => false

/-- Whether a text is a date. -/
def isDate (cs : List Char) : Bool :=
  afterDate? cs == some []

/-- Whether a word is a date, a time of day or both. -/
def isMoment (cs : List Char) : Bool :=
  match afterDate? cs with
  | some [] => true
  | some ('T' :: rest) => isTimeWithOffset rest
  | some ('t' :: rest) => isTimeWithOffset rest
  | some _ => false
  | none => afterTime? cs == some []

/-! ## Words -/

/-- The value of a word. -/
def ofWord? (word : List Char) : Option Node :=
  if word = ['t', 'r', 'u', 'e'] then some (.boolean true)
  else if word = ['f', 'a', 'l', 's', 'e'] then some (.boolean false)
  else if isMoment word then some .moment
  else
    match word with
    | '0' :: 'x' :: digits => basedInteger? 16 digits
    | '0' :: 'o' :: digits => basedInteger? 8 digits
    | '0' :: 'b' :: digits => basedInteger? 2 digits
    | word =>
      match float? word with
      | some node => some node
      | none => decimalInteger? word

end LeadScoring.Toml
