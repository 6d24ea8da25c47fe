/-!
# Text - Blank characters, trimming and comparison

Cells and lead values are compared after trimming.  Blank means the Unicode property
`White_Space`; letter case is ignored only between ASCII letters.
-/

namespace LeadScoring.Text

/-! ## Blank characters -/

/-- The code points of the Unicode property `White_Space`, as closed ranges. -/
def blankRanges : List (Nat × Nat) :=
  [(0x0009, 0x000D), (0x0020, 0x0020), (0x0085, 0x0085), (0x00A0, 0x00A0), (0x1680, 0x1680),
   (0x2000, 0x200A), (0x2028, 0x2029), (0x202F, 0x202F), (0x205F, 0x205F), (0x3000, 0x3000)]

/-- Whether a character has the property `White_Space`. -/
def isBlankChar (c : Char) : Bool :=
  blankRanges.any fun (low, high) => decide (low ≤ c.toNat) && decide (c.toNat ≤ high)

/-- The characters between the first and the last that are not blank. -/
def trimChars (cs : List Char) : List Char :=
  ((cs.dropWhile isBlankChar).reverse.dropWhile isBlankChar).reverse

/-- A text without blank characters at its ends. -/
def trim (s : String) : String :=
  String.ofList (trimChars s.toList)

/-- Whether a text holds nothing but blank characters. -/
def isBlank (s : String) : Bool :=
  s.toList.all isBlankChar

/-! ## Comparison and search -/

/-- The text with its ASCII capitals made small. -/
def lowerAscii (s : String) : String :=
  String.ofList (s.toList.map Char.toLower)

/-- What follows a text at the start of another. -/
def afterStart? (start text : List Char) : Option (List Char) :=
  match start, text with
  | [], rest => some rest
  | c :: start, d :: text => if c = d then afterStart? start text else none
  | _ :: _, [] => none

/-- Whether a text occurs somewhere inside another. -/
def occursIn (part : List Char) : List Char → Bool
  | [] => part.isEmpty
  | c :: text => (afterStart? part (c :: text)).isSome || occursIn part text

/-- Order by code points, which is also the order of the UTF-8 bytes. -/
def le (s t : String) : Bool :=
  !decide (t < s)

/-- Texts joined with a separator between neighbours. -/
def joined (separator : String) (parts : List String) : String :=
  String.intercalate separator parts

end LeadScoring.Text
