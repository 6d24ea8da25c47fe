import LeadScoring.Json.Literal

/-!
# TOML strings

The four kinds of strings: basic and literal ones, each on one line or on several.  Basic strings
have escapes; strings on several lines drop a line end behind the opening quotes and may hold up
to two quotes in a row, also just before the closing ones.

Main definitions:

- `readString`: a string at the start of a text, with what follows it.
- `writeString`: the plainest kind of string that can hold a text.
-/

namespace LeadScoring.Toml

/-! ## Reading -/

/-- Whether a character may stand in a string as it is: a tab, or no control character. -/
def isPrintable (c : Char) : Bool :=
  c == '\t' || (decide (0x20 ≤ c.toNat) && c.toNat != 0x7F)

/-- The character of a one-letter escape. -/
def escapedChar? (c : Char) : Option Char :=
  if c = 'b' then some '\x08'
  else if c = 't' then some '\t'
  else if c = 'n' then some '\n'
  else if c = 'f' then some '\x0c'
  else if c = 'r' then some '\r'
  else if c = '"' then some '"'
  else if c = '\\' then some '\\'
  else none

/-- The character of a code point, unless it is half of a surrogate pair or too large. -/
def charOf? (n : Nat) : Option Char :=
  if n < 0xD800 || (0xDFFF < n && n < 0x110000) then some (Char.ofNat n) else none

/-- The character of an escape with four digits. -/
def shortCode? (a b c d : Char) : Option Char :=
  (Json.unit? a b c d).bind charOf?

/-- The character of an escape with eight digits. -/
def longCode? (a b c d e f g h : Char) : Option Char :=
  match Json.unit? a b c d, Json.unit? e f g h with
  | some high, some low => charOf? (high * 0x10000 + low)
  | _, _ => none

/-- Puts a character in front of a string that was read, if both are there. -/
def consChar (c : Option Char) (read : Option (List Char × List Char)) :
    Option (List Char × List Char) :=
  match c, read with
  | some c, some (cs, rest) => some (c :: cs, rest)
  | _, _ => none

/-- A basic string on one line, behind its opening quote. -/
def readBasic : List Char → Option (List Char × List Char)
  | '"' :: rest => some ([], rest)
  | '\\' :: 'u' :: a :: b :: c :: d :: rest => consChar (shortCode? a b c d) (readBasic rest)
  | '\\' :: 'U' :: a :: b :: c :: d :: e :: f :: g :: h :: rest =>
    consChar (longCode? a b c d e f g h) (readBasic rest)
  | '\\' :: c :: rest => consChar (escapedChar? c) (readBasic rest)
  | c :: rest => if isPrintable c then consChar (some c) (readBasic rest) else none
  | [] => none

/-- A literal string on one line, behind its opening quote. -/
def readLiteral : List Char → Option (List Char × List Char)
  | '\'' :: rest => some ([], rest)
  | c :: rest => if isPrintable c then consChar (some c) (readLiteral rest) else none
  | [] => none

/-- Whether a blank or line end. -/
def isBlankOrBreak (c : Char) : Bool :=
  c == ' ' || c == '\t' || c == '\n'

/-- Whether only blanks stand before the next line end. -/
def startsLineEnd (cs : List Char) : Bool :=
  match cs.dropWhile fun c => c == ' ' || c == '\t' with
  | '\n' :: _ => true
  | '\r' :: '\n' :: _ => true
  | _ => false

/-- A basic string on several lines, behind its opening quotes.  A backslash at the end of a line
drops all blanks and line ends up to the next character; `dropping` says that this is going on. -/
def readBasicLines (dropping : Bool) : List Char → Option (List Char × List Char)
  | '"' :: '"' :: '"' :: '"' :: '"' :: rest => some (['"', '"'], rest)
  | '"' :: '"' :: '"' :: '"' :: rest => some (['"'], rest)
  | '"' :: '"' :: '"' :: rest => some ([], rest)
  | '\r' :: '\n' :: rest =>
    if dropping then readBasicLines true rest
    else consChar (some '\n') (readBasicLines false rest)
  | '\\' :: 'u' :: a :: b :: c :: d :: rest =>
    consChar (shortCode? a b c d) (readBasicLines false rest)
  | '\\' :: 'U' :: a :: b :: c :: d :: e :: f :: g :: h :: rest =>
    consChar (longCode? a b c d e f g h) (readBasicLines false rest)
  | '\\' :: c :: rest =>
    if startsLineEnd (c :: rest) then readBasicLines true (c :: rest)
    else consChar (escapedChar? c) (readBasicLines false rest)
  | c :: rest =>
    if dropping && isBlankOrBreak c then readBasicLines true rest
    else if c = '\n' || isPrintable c then consChar (some c) (readBasicLines false rest)
    else none
  | [] => none

/-- A literal string on several lines, behind its opening quotes. -/
def readLiteralLines : List Char → Option (List Char × List Char)
  | '\'' :: '\'' :: '\'' :: '\'' :: '\'' :: rest => some (['\'', '\''], rest)
  | '\'' :: '\'' :: '\'' :: '\'' :: rest => some (['\''], rest)
  | '\'' :: '\'' :: '\'' :: rest => some ([], rest)
  | '\r' :: '\n' :: rest => consChar (some '\n') (readLiteralLines rest)
  | c :: rest =>
    if c = '\n' || isPrintable c then consChar (some c) (readLiteralLines rest) else none
  | [] => none

/-- The text without one line end at its start. -/
def dropLineEnd : List Char → List Char
  | '\n' :: rest => rest
  | '\r' :: '\n' :: rest => rest
  | cs => cs

/-- A string of any kind at the start of a text. -/
def readString : List Char → Option (List Char × List Char)
  | '"' :: '"' :: '"' :: rest => readBasicLines false (dropLineEnd rest)
  | '"' :: rest => readBasic rest
  | '\'' :: '\'' :: '\'' :: rest => readLiteralLines (dropLineEnd rest)
  | '\'' :: rest => readLiteral rest
  | _ => none

/-! ## Writing -/

/-- Whether a character needs a code to be written: a control character other than the tab and
the line end. -/
def needsCode (c : Char) : Bool :=
  (decide (c.toNat < 0x20) && c != '\t' && c != '\n') || c.toNat == 0x7F

/-- Whether a character occurs three times in a row. -/
def hasThree (q : Char) : List Char → Bool
  | a :: b :: c :: rest => (a == q && b == q && c == q) || hasThree q (b :: c :: rest)
  | _ => false

/-- A code point as an escape with four capital digits. -/
def codeEscape (n : Nat) : List Char :=
  let digit (k : Nat) : Char := (Json.hexDigit (n / k % 16)).toUpper
  ['\\', 'u', digit 0x1000, digit 0x100, digit 0x10, digit 1]

/-- The spelling of a character in a basic string on one line. -/
def basicChar (c : Char) : List Char :=
  if c = '\t' then ['\\', 't']
  else if c = '\n' then ['\\', 'n']
  else if c = '"' then ['\\', '"']
  else if c = '\\' then ['\\', '\\']
  else if c = '\x08' then ['\\', 'b']
  else if c = '\x0c' then ['\\', 'f']
  else if c = '\r' then ['\\', 'r']
  else if needsCode c then codeEscape c.toNat
  else [c]

/-- The spelling of a text between three double quotes: line ends stand as they are and all else is
spelled as on one line, but for a double quote, which needs an escape only as the third in a row.
`quotes` counts the plain double quotes just before. -/
def basicLines (quotes : Nat) : List Char → List Char
  | [] => []
  | c :: rest =>
    if c = '"' then
      if quotes < 2 then '"' :: basicLines (quotes + 1) rest
      else '\\' :: '"' :: basicLines 0 rest
    else if c = '\n' then '\n' :: basicLines 0 rest
    else basicChar c ++ basicLines 0 rest

/-- A text on several lines begins on a line of its own. -/
def leadingBreak (cs : List Char) : List Char :=
  if cs.contains '\n' then ['\n'] else []

/-- A text as a basic string on one line. -/
def writeBasic (cs : List Char) : List Char :=
  '"' :: cs.flatMap basicChar ++ ['"']

/-- A text as a literal string on one line. -/
def writeLiteral (cs : List Char) : List Char :=
  '\'' :: cs ++ ['\'']

/-- A text as a basic string on several lines. -/
def writeBasicLines (cs : List Char) : List Char :=
  ['"', '"', '"'] ++ leadingBreak cs ++ basicLines 0 cs ++ ['"', '"', '"']

/-- A text as a literal string on several lines. -/
def writeLiteralLines (cs : List Char) : List Char :=
  ['\'', '\'', '\''] ++ leadingBreak cs ++ cs ++ ['\'', '\'', '\'']

/-- The first kind of string that holds a text with no escape but that of the tab, from the plainest
kind on.  A text that needs more escapes is a basic string, on several lines if it has a line
end. -/
def writeString (cs : List Char) : List Char :=
  let coded := cs.any needsCode
  let broken := cs.contains '\n'
  if !coded && !cs.contains '\\' && !cs.contains '"' && !broken then writeBasic cs
  else if !coded && !cs.contains '\'' && !broken then writeLiteral cs
  else if !coded && !cs.contains '\\' && !hasThree '"' cs then writeBasicLines cs
  else if !coded && !hasThree '\'' cs then writeLiteralLines cs
  else if broken then writeBasicLines cs
  else writeBasic cs

end LeadScoring.Toml
