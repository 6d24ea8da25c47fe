import LeadScoring.Json.Reader
import LeadScoring.Text

/-!
# JSON values

`Json α` is a JSON value whose fractional numbers have type `α`.  Read from a text, the members of
an object stand in the order of their keys and the last of several members with one key counts.
Writing follows the order in the value; the canonical form sorts the members at every level.

Main definitions:

- `Json`: the values.
- `Json.ofRaw?`, `Json.parse?`: reading, with a limit on nesting.
- `Json.toRaw`: the tree of literals that a value is written as.
- `Json.sorted`, `Json.canonical`: the canonical form.
-/

namespace LeadScoring

open Json (Number Raw FractionText)

/-- A JSON value. -/
inductive Json (α : Type) where
  | null
  | bool (b : Bool)
  | number (n : Number α)
  | string (s : String)
  | array (items : List (Json α))
  | object (members : List (String × Json α))
deriving Inhabited

namespace Json

variable {α : Type}

/-! ## Members of an object -/

/-- Puts a member at its place among members sorted by key; an older one with this key gives
way. -/
def putMember {β : Type} (key : String) (value : β) : List (String × β) → List (String × β)
  | [] => [(key, value)]
  | (k, v) :: members =>
    if key = k then (key, value) :: members
    else if key < k then (key, value) :: (k, v) :: members
    else (k, v) :: putMember key value members

/-- Members in the order of their keys, the last one of each key. -/
def sortMembers {β : Type} (members : List (String × β)) : List (String × β) :=
  members.foldl (fun sorted (key, value) => putMember key value sorted) []

/-- The value of a key. -/
def findMember? {β : Type} (key : String) : List (String × β) → Option β
  | [] => none
  | (k, v) :: members => if key = k then some v else findMember? key members

/-- The value of a key in an object. -/
def get? (key : String) : Json α → Option (Json α)
  | object members => findMember? key members
  | _ => none

/-! ## Reading -/

/-- Arrays and objects may be nested this deep in a free-form value. -/
def nestingLimit : Nat := 127

mutual

/-- The value of a tree of literals with at most `limit` levels of arrays and objects. -/
def ofRaw? [FractionText α] (limit : Nat) : Raw → Option (Json α)
  | .null => some null
  | .bool b => some (bool b)
  | .number spelling => (Number.ofSpelling? spelling).map number
  | .string spelling => (stringOf? spelling).map string
  | .array items =>
    match limit with
    | 0 => none
    | limit + 1 => (itemsOfRaw? limit items).map array
  | .object members =>
    match limit with
    | 0 => none
    | limit + 1 => (membersOfRaw? limit members).map fun ms => object (sortMembers ms)

/-- The values of array items. -/
def itemsOfRaw? [FractionText α] (limit : Nat) : List Raw → Option (List (Json α))
  | [] => some []
  | item :: items =>
    match ofRaw? limit item, itemsOfRaw? limit items with
    | some x, some xs => some (x :: xs)
    | _, _ => none

/-- The keys and values of object members, in the order of the text. -/
def membersOfRaw? [FractionText α] (limit : Nat) :
    List (List Char × Raw) → Option (List (String × Json α))
  | [] => some []
  | (key, value) :: members =>
    match stringOf? key, ofRaw? limit value, membersOfRaw? limit members with
    | some k, some x, some ms => some ((k, x) :: ms)
    | _, _, _ => none

end

/-- The value of a JSON text. -/
def parse? [FractionText α] (text : String) : Option (Json α) :=
  (Raw.parse? text).bind (ofRaw? nestingLimit)

/-! ## Writing -/

mutual

/-- The tree of literals that a value is written as. -/
def toRaw [FractionText α] : Json α → Raw
  | null => .null
  | bool b => .bool b
  | number n => .number n.spell
  | string s => .string (spellString s)
  | array items => .array (itemsToRaw items)
  | object members => .object (membersToRaw members)

/-- The trees of array items. -/
def itemsToRaw [FractionText α] : List (Json α) → List Raw
  | [] => []
  | item :: items => toRaw item :: itemsToRaw items

/-- The trees of object members. -/
def membersToRaw [FractionText α] : List (String × Json α) → List (List Char × Raw)
  | [] => []
  | (key, value) :: members => (spellString key, toRaw value) :: membersToRaw members

end

mutual

/-- The value with the members of every object in the order of their keys. -/
def sorted : Json α → Json α
  | array items => array (sortedItems items)
  | object members => object (sortMembers (sortedMembers members))
  | value => value

/-- Array items with their objects sorted. -/
def sortedItems : List (Json α) → List (Json α)
  | [] => []
  | item :: items => sorted item :: sortedItems items

/-- Member values with their objects sorted. -/
def sortedMembers : List (String × Json α) → List (String × Json α)
  | [] => []
  | (key, value) :: members => (key, sorted value) :: sortedMembers members

end

/-- The text without blanks, members in the order of the value. -/
def compact [FractionText α] (value : Json α) : String :=
  String.ofList value.toRaw.compact

/-- The indented text, members in the order of the value. -/
def pretty [FractionText α] (value : Json α) : String :=
  String.ofList value.toRaw.pretty

/-- The canonical text: no blanks, members of every object in the order of their keys. -/
def canonical [FractionText α] (value : Json α) : String :=
  value.sorted.compact

/-! ## Building values -/

/-- A whole number as a value. -/
def ofNat (n : Nat) : Json α :=
  number (.int n)

/-- An integer as a value. -/
def ofInt (i : Int) : Json α :=
  number (.int i)

/-- A fractional number as a value. -/
def ofFraction (x : α) : Json α :=
  number (.fraction x)

/-- A value that may be absent. -/
def ofOption {β : Type} (f : β → Json α) : Option β → Json α
  | some x => f x
  | none => null

end Json

end LeadScoring
