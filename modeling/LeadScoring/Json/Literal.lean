import LeadScoring.Decimal.Layout
import LeadScoring.Decimal.Numeral

/-!
# Literals of JSON

How strings and numbers are spelled.  Strings escape the quote, the backslash and the control
characters; reading also knows the other escapes and joins surrogate pairs.  A number without
point and exponent is an integer if it fits 64 bits, and a double otherwise.

Main definitions:

- `escape` and `unescape?`: the spelling of a string and back.
- `isNumber`: the grammar of number literals.
- `Number`: an integer or a fractional number, with `Number.spell` and `Number.ofSpelling?`.
- `FractionText`: how the fractional numbers of a type are spelled.
-/

namespace LeadScoring.Json

/-! ## Strings -/

/-- A hexadecimal digit in small letters. -/
def hexDigit (n : Nat) : Char :=
  if n < 10 then Char.ofNat ('0'.toNat + n) else Char.ofNat ('a'.toNat + (n - 10))

/-- The value of a hexadecimal digit in either case. -/
def hexValue? (c : Char) : Option Nat :=
  if '0' ≤ c && c ≤ '9' then some (c.toNat - '0'.toNat)
  else if 'a' ≤ c && c ≤ 'f' then some (c.toNat - 'a'.toNat + 10)
  else if 'A' ≤ c && c ≤ 'F' then some (c.toNat - 'A'.toNat + 10)
  else none

/-- The spelling of one character: an escape where one is needed. -/
def escapeChar (c : Char) : List Char :=
  if c = '"' then ['\\', '"']
  else if c = '\\' then ['\\', '\\']
  else if c = '\x08' then ['\\', 'b']
  else if c = '\x0c' then ['\\', 'f']
  else if c = '\n' then ['\\', 'n']
  else if c = '\r' then ['\\', 'r']
  else if c = '\t' then ['\\', 't']
  else if c.toNat < 0x20 then
    ['\\', 'u', '0', '0', hexDigit (c.toNat / 16), hexDigit (c.toNat % 16)]
  else [c]

/-- The spelling of a string between its quotes. -/
def escape (cs : List Char) : List Char :=
  cs.flatMap escapeChar

/-- The character of a one-letter escape. -/
def simpleEscape? (c : Char) : Option Char :=
  if c = '"' then some '"'
  else if c = '\\' then some '\\'
  else if c = '/' then some '/'
  else if c = 'b' then some '\x08'
  else if c = 'f' then some '\x0c'
  else if c = 'n' then some '\n'
  else if c = 'r' then some '\r'
  else if c = 't' then some '\t'
  else none

/-- The value of four hexadecimal digits. -/
def unit? (a b c d : Char) : Option Nat :=
  match hexValue? a, hexValue? b, hexValue? c, hexValue? d with
  | some a, some b, some c, some d => some (((a * 16 + b) * 16 + c) * 16 + d)
  | _, _, _, _ => none

/-- Whether a 16-bit unit is the first half of a surrogate pair. -/
def isHighSurrogate (u : Nat) : Bool :=
  decide (0xD800 ≤ u) && decide (u < 0xDC00)

/-- Whether a 16-bit unit is the second half of a surrogate pair. -/
def isLowSurrogate (u : Nat) : Bool :=
  decide (0xDC00 ≤ u) && decide (u < 0xE000)

/-- The character that a surrogate pair stands for. -/
def pairChar (high low : Nat) : Char :=
  Char.ofNat (0x10000 + (high - 0xD800) * 0x400 + (low - 0xDC00))

/-- The characters that a spelling stands for; a surrogate without its partner stands for
none. -/
def unescape? : List Char → Option (List Char)
  | [] => some []
  | '\\' :: 'u' :: a :: b :: c :: d :: '\\' :: 'u' :: e :: f :: g :: h :: rest =>
    match unit? a b c d, unit? e f g h with
    | some high, some low =>
      if isHighSurrogate high then
        if isLowSurrogate low then (unescape? rest).map (pairChar high low :: ·) else none
      else if isLowSurrogate high then none
      else (unescape? ('\\' :: 'u' :: e :: f :: g :: h :: rest)).map (Char.ofNat high :: ·)
    | _, _ => none
  | '\\' :: 'u' :: a :: b :: c :: d :: rest =>
    match unit? a b c d with
    | some u =>
      if isHighSurrogate u || isLowSurrogate u then none
      else (unescape? rest).map (Char.ofNat u :: ·)
    | none => none
  | '\\' :: c :: rest =>
    match simpleEscape? c with
    | some x => (unescape? rest).map (x :: ·)
    | none => none
  | '\\' :: [] => none
  | c :: rest => (unescape? rest).map (c :: ·)

/-- The string that a spelling stands for. -/
def stringOf? (spelling : List Char) : Option String :=
  (unescape? spelling).map String.ofList

/-- The spelling of a string. -/
def spellString (s : String) : List Char :=
  escape s.toList

/-! ## Numbers -/

/-- Whether whole digits may start a number: a zero stands alone. -/
def isWhole : List Char → Bool
  | [] => false
  | ['0'] => true
  | '0' :: _ => false
  | _ => true

/-- An optional exponent at the end of a number. -/
def isExponentTail : List Char → Bool
  | [] => true
  | c :: cs => (c == 'e' || c == 'E') && (Numeral.readExponent cs).isSome

/-- An optional fraction and exponent at the end of a number. -/
def isFractionTail : List Char → Bool
  | '.' :: cs =>
    let (digits, rest) := Numeral.digitRun cs
    !digits.isEmpty && isExponentTail rest
  | cs => isExponentTail cs

/-- The spelling without its minus sign. -/
def splitMinus : List Char → Bool × List Char
  | '-' :: cs => (true, cs)
  | cs => (false, cs)

/-- The grammar of number literals. -/
def isNumber (spelling : List Char) : Bool :=
  let (digits, rest) := Numeral.digitRun (splitMinus spelling).2
  isWhole digits && isFractionTail rest

/-- The number of a JSON value: an integer, or a number with a fractional form. -/
inductive Number (α : Type) where
  | int (i : Int)
  | fraction (x : α)
deriving DecidableEq, Repr

/-- How the fractional numbers of a type are spelled and read. -/
class FractionText (α : Type) where
  /-- The spelling of a number. -/
  spell : α → List Char
  /-- The number nearest to a numeral with its sign, unless it is too large. -/
  ofNumeral? : Bool → Numeral → Option α

/-- Doubles: shortest digits, and correct rounding on the way back. -/
instance : FractionText Float where
  spell x := (Layout.json.write x).toList
  ofNumeral? negative n :=
    let x := n.toFloat negative
    if Binary64.isFinite x then some x else none

namespace Number

variable {α : Type}

/-- The spelling of an integer. -/
def spellInt (i : Int) : List Char :=
  if i < 0 then '-' :: Nat.toDigits 10 i.natAbs else Nat.toDigits 10 i.natAbs

/-- The spelling of a number. -/
def spell [FractionText α] : Number α → List Char
  | int i => spellInt i
  | fraction x => FractionText.spell x

/-- Whether an integer fits a signed or an unsigned word of 64 bits. -/
def fitsWord (i : Int) : Bool :=
  decide (-(0x8000000000000000 : Int) ≤ i) && decide (i < (0x10000000000000000 : Int))

/-- The integer that a spelling denotes: digits only, no minus before zero, within 64 bits. -/
def intOfSpelling? (spelling : List Char) : Option Int :=
  let (negative, digits) := splitMinus spelling
  if digits.all Char.isDigit then
    let n := Numeral.natOfDigits digits
    let i : Int := if negative then -(n : Int) else n
    if (negative && n == 0) || !fitsWord i then none else some i
  else none

/-- The fractional number that a spelling denotes. -/
def fractionOfSpelling? [FractionText α] (spelling : List Char) : Option α :=
  let (negative, cs) := splitMinus spelling
  (Numeral.read cs).bind (FractionText.ofNumeral? negative)

/-- The number that a spelling denotes. -/
def ofSpelling? [FractionText α] (spelling : List Char) : Option (Number α) :=
  match intOfSpelling? spelling with
  | some i => some (int i)
  | none => (fractionOfSpelling? spelling).map fraction

end Number

end LeadScoring.Json
