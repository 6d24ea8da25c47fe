import LeadScoring.Json.Value

/-!
# Leads

A lead is a bag of named values as a caller sends it.  One quantity may stand under several keys;
the first key that holds something counts, where null and a blank string hold nothing.  Reading
never fails: what does not suit the wanted kind reads as absent, zero or false.

Main definitions:

- `Lead`: the named values, in the order of their keys.
- `Lead.lookup?`: the first value that is not blank under a list of keys.
- `Lead.text?`, `Lead.number`, `Lead.flag`: its reading as a text, a number or a truth value.
-/

namespace LeadScoring

/-- A value as leads hold them. -/
abbrev Value := Json Float

namespace Value

/-- Null and blank strings hold nothing. -/
def isBlank : Value → Bool
  | .null => true
  | .string s => Text.isBlank s
  | _ => false

/-- The double nearest to the number of a value. -/
def ofNumber : Json.Number Float → Float
  | .int i => if i < 0 then -Float.ofNat i.natAbs else Float.ofNat i.natAbs
  | .fraction x => x

/-- The trimmed text of a string, number or truth value; a blank string has none. -/
def text? : Value → Option String
  | .string s => if Text.isBlank s then none else some (Text.trim s)
  | .number n => some (String.ofList n.spell)
  | .bool b => some (if b then "true" else "false")
  | _ => none

/-- The number that a value denotes, if any. -/
def float? : Value → Option Float
  | .number n => some (ofNumber n)
  | .string s => Numeral.readFloat? (Text.trim s)
  | .bool b => some (if b then 1.0 else 0.0)
  | _ => none

/-- The finite number that a value denotes, otherwise zero. -/
def toNumber (v : Value) : Float :=
  match v.float? with
  | some x => if Binary64.isFinite x then x else 0.0
  | none => 0.0

/-- Whether a text is one of the words for agreement, in any letter case. -/
def isAgreement (s : String) : Bool :=
  let word := Text.lowerAscii s
  word == "true" || word == "yes" || word == "y"

/-- Whether a value says yes: a true truth value, a word of agreement, or a number other than
zero. -/
def toFlag : Value → Bool
  | .bool b => b
  | .number n => toNumber (.number n) != 0.0
  | .string s => isAgreement (Text.trim s) || toNumber (.string s) != 0.0
  | _ => false

end Value

/-- A lead: named values in the order of their names. -/
structure Lead where
  entries : List (String × Value)
deriving Inhabited

namespace Lead

/-- The lead without any entry. -/
def empty : Lead :=
  ⟨[]⟩

/-- The lead of an object; any other value is an empty lead. -/
def ofValue : Value → Lead
  | .object members => ⟨members⟩
  | _ => empty

/-- The lead as an object. -/
def toValue (lead : Lead) : Value :=
  .object lead.entries

/-- A lead from the cells of a table row; of several columns with one name the last counts. -/
def ofColumns (columns : List (String × String)) : Lead :=
  ⟨Json.sortMembers (columns.map fun (name, cell) => (name, Json.string cell))⟩

/-- Whether a lead has no entry at all. -/
def isEmpty (lead : Lead) : Bool :=
  lead.entries.isEmpty

/-- The value stored under a key. -/
def get? (lead : Lead) (key : String) : Option Value :=
  Json.findMember? key lead.entries

/-- The first value under a list of keys that is not blank. -/
def lookup? (lead : Lead) (keys : List String) : Option Value :=
  keys.findSome? fun key =>
    match lead.get? key with
    | some v => if v.isBlank then none else some v
    | none => none

/-- The text under a list of keys. -/
def text? (lead : Lead) (keys : List String) : Option String :=
  (lead.lookup? keys).bind Value.text?

/-- The number under a list of keys, zero if there is none. -/
def number (lead : Lead) (keys : List String) : Float :=
  match lead.lookup? keys with
  | some v => v.toNumber
  | none => 0.0

/-- The truth value under a list of keys, false if there is none. -/
def flag (lead : Lead) (keys : List String) : Bool :=
  match lead.lookup? keys with
  | some v => v.toFlag
  | none => false

end Lead

end LeadScoring
