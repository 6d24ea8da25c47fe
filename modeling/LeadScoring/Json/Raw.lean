/-!
# JSON texts as trees of literals

`Raw` is the structure of a JSON text with its numbers and strings kept as they are spelled: the
text between the quotes still holds its escapes, members keep their order, and repeated keys stay.
Reading a text gives such a tree, and whoever needs a value interprets the literals; a part that
nobody asks for is never interpreted.

Main definitions:

- `Raw`: the tree.
- `Raw.compact`, `Raw.pretty`: its two text forms.
-/

namespace LeadScoring.Json

/-- A JSON text as a tree.  Strings are spelled as between their quotes. -/
inductive Raw where
  | null
  | bool (b : Bool)
  | number (spelling : List Char)
  | string (spelling : List Char)
  | array (items : List Raw)
  | object (members : List (List Char × Raw))
deriving Inhabited

namespace Raw

/-- A string literal with its quotes. -/
def quoted (spelling : List Char) : List Char :=
  '"' :: spelling ++ ['"']

/-- The words for the two truth values. -/
def boolText (b : Bool) : List Char :=
  if b then ['t', 'r', 'u', 'e'] else ['f', 'a', 'l', 's', 'e']

mutual

/-- The text without any blank between its tokens. -/
def compact : Raw → List Char
  | null => ['n', 'u', 'l', 'l']
  | bool b => boolText b
  | number spelling => spelling
  | string spelling => quoted spelling
  | array items => '[' :: compactItems items ++ [']']
  | object members => '{' :: compactMembers members ++ ['}']

/-- Array items with commas between them. -/
def compactItems : List Raw → List Char
  | [] => []
  | [item] => compact item
  | item :: items => compact item ++ ',' :: compactItems items

/-- Object members with commas between them. -/
def compactMembers : List (List Char × Raw) → List Char
  | [] => []
  | [(key, value)] => quoted key ++ ':' :: compact value
  | (key, value) :: members => quoted key ++ ':' :: compact value ++ ',' :: compactMembers members

end

/-- A new line indented by two blanks for each level. -/
def newLine (level : Nat) : List Char :=
  '\n' :: List.replicate (2 * level) ' '

mutual

/-- The text with one item or member to a line; empty arrays and objects stay on one line. -/
def prettyAt (level : Nat) : Raw → List Char
  | array [] => ['[', ']']
  | object [] => ['{', '}']
  | array items => '[' :: prettyItems (level + 1) items ++ newLine level ++ [']']
  | object members => '{' :: prettyMembers (level + 1) members ++ newLine level ++ ['}']
  | null => ['n', 'u', 'l', 'l']
  | bool b => boolText b
  | number spelling => spelling
  | string spelling => quoted spelling

/-- Array items, each on a line of its own. -/
def prettyItems (level : Nat) : List Raw → List Char
  | [] => []
  | [item] => newLine level ++ prettyAt level item
  | item :: items => newLine level ++ prettyAt level item ++ ',' :: prettyItems level items

/-- Object members, each on a line of its own. -/
def prettyMembers (level : Nat) : List (List Char × Raw) → List Char
  | [] => []
  | [(key, value)] => newLine level ++ quoted key ++ ':' :: ' ' :: prettyAt level value
  | (key, value) :: members =>
    newLine level ++ quoted key ++ ':' :: ' ' :: prettyAt level value ++
      ',' :: prettyMembers level members

end

/-- The indented text of a whole document. -/
def pretty (r : Raw) : List Char :=
  prettyAt 0 r

end Raw

end LeadScoring.Json
