import LeadScoring.Json.Literal

/-!
# Tokens of JSON

A text is cut into brackets, separators, strings and words by an automaton that reads one
character at a time.  A word is a longest run of characters that neither separate nor quote; it
has to be one of the three keywords or a number.
-/

namespace LeadScoring.Json

/-- A token.  Numbers and strings keep their spelling. -/
inductive Token where
  | openArray
  | closeArray
  | openObject
  | closeObject
  | comma
  | colon
  | null
  | bool (b : Bool)
  | number (spelling : List Char)
  | string (spelling : List Char)
deriving DecidableEq, Repr

namespace Token

/-- The token that a word stands for. -/
def ofWord? (word : List Char) : Option Token :=
  if word = ['n', 'u', 'l', 'l'] then some null
  else if word = ['t', 'r', 'u', 'e'] then some (bool true)
  else if word = ['f', 'a', 'l', 's', 'e'] then some (bool false)
  else if isNumber word then some (number word)
  else none

/-- The token of a bracket or separator. -/
def ofMark? (c : Char) : Option Token :=
  if c = '[' then some openArray
  else if c = ']' then some closeArray
  else if c = '{' then some openObject
  else if c = '}' then some closeObject
  else if c = ',' then some comma
  else if c = ':' then some colon
  else none

/-- The four characters that may stand between tokens. -/
def isSpace (c : Char) : Bool :=
  c == ' ' || c == '\t' || c == '\n' || c == '\r'

end Token

/-- Where the automaton stands inside a token.  Letters read so far are kept in reverse. -/
inductive ScanState where
  | between
  | word (letters : List Char)
  | string (letters : List Char)
  /-- Behind a backslash. -/
  | escape (letters : List Char)
  /-- Inside a four-digit escape, with the number of digits still to come. -/
  | hex (letters : List Char) (left : Nat)
deriving DecidableEq, Repr

/-- The automaton between two characters: the tokens so far in reverse, and the open one. -/
structure Scanner where
  tokens : List Token
  state : ScanState
deriving DecidableEq, Repr

namespace Scanner

/-- The automaton before the first character. -/
def start : Scanner :=
  ⟨[], .between⟩

/-- Reads a character that does not continue a word. -/
def stepBetween (tokens : List Token) (c : Char) : Option Scanner :=
  if Token.isSpace c then some ⟨tokens, .between⟩
  else if c = '"' then some ⟨tokens, .string []⟩
  else
    match Token.ofMark? c with
    | some t => some ⟨t :: tokens, .between⟩
    | none => some ⟨tokens, .word [c]⟩

/-- Whether a character ends a word. -/
def endsWord (c : Char) : Bool :=
  Token.isSpace c || c == '"' || (Token.ofMark? c).isSome

/-- Reads one character. -/
def step (s : Scanner) (c : Char) : Option Scanner :=
  match s.state with
  | .between => stepBetween s.tokens c
  | .word letters =>
    if endsWord c then
      match Token.ofWord? letters.reverse with
      | some t => stepBetween (t :: s.tokens) c
      | none => none
    else some ⟨s.tokens, .word (c :: letters)⟩
  | .string letters =>
    if c = '"' then some ⟨.string letters.reverse :: s.tokens, .between⟩
    else if c = '\\' then some ⟨s.tokens, .escape (c :: letters)⟩
    else if c.toNat < 0x20 then none
    else some ⟨s.tokens, .string (c :: letters)⟩
  | .escape letters =>
    if c = 'u' then some ⟨s.tokens, .hex (c :: letters) 4⟩
    else if (simpleEscape? c).isSome then some ⟨s.tokens, .string (c :: letters)⟩
    else none
  | .hex letters left =>
    if (hexValue? c).isSome then
      if left ≤ 1 then some ⟨s.tokens, .string (c :: letters)⟩
      else some ⟨s.tokens, .hex (c :: letters) (left - 1)⟩
    else none

/-- Reads a whole row of characters. -/
def run (s : Scanner) : List Char → Option Scanner
  | [] => some s
  | c :: cs =>
    match s.step c with
    | some s => run s cs
    | none => none

/-- The tokens in order, if no token is left open. -/
def finish (s : Scanner) : Option (List Token) :=
  match s.state with
  | .between => some s.tokens.reverse
  | .word letters => (Token.ofWord? letters.reverse).map fun t => (t :: s.tokens).reverse
  | _ => none

end Scanner

/-- The tokens of a text. -/
def tokens? (cs : List Char) : Option (List Token) :=
  (Scanner.start.run cs).bind Scanner.finish

end LeadScoring.Json
