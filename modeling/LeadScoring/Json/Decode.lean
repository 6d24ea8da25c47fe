import LeadScoring.Json.Reader

/-!
# Interpreting JSON trees as records

Readers for the parts of a typed document.  A record is an object, or an array of its fields in
their order.  In an object unknown members are skipped without looking into them, while a field
given twice is refused; a number has to suit the type of its field.

Main definitions:

- `Raw.fields?`: the fields of a record, aligned with their names.
- `Raw.items?`, `Raw.text?`, `Raw.word?`, `Raw.integer?`, `Raw.fraction?`: the parts.
-/

namespace LeadScoring.Json.Raw

/-- The items of an array, each read in the same way. -/
def items? {β : Type} (read : Raw → Option β) : Raw → Option (List β)
  | array items => items.mapM read
  | _ => none

/-- The string of a string literal. -/
def text? : Raw → Option String
  | string spelling => stringOf? spelling
  | _ => none

/-- The integer of a number literal without point and exponent. -/
def wholeNumber? : Raw → Option Int
  | number spelling => Number.intOfSpelling? spelling
  | _ => none

/-- A natural number below a bound. -/
def word? (bound : Nat) (r : Raw) : Option Nat :=
  match r.wholeNumber? with
  | some i => if 0 ≤ i && i < (bound : Int) then some i.toNat else none
  | none => none

/-- An integer of a signed 64-bit word. -/
def integer? (r : Raw) : Option Int :=
  match r.wholeNumber? with
  | some i => if i < (0x8000000000000000 : Int) then some i else none
  | none => none

/-- A number of either kind as a fractional one. -/
def fraction? {α : Type} [FractionText α] : Raw → Option α
  | number spelling => Number.fractionOfSpelling? spelling
  | _ => none

/-- Object members with their keys read as strings. -/
def namedMembers? (members : List (List Char × Raw)) : Option (List (String × Raw)) :=
  members.mapM fun (key, value) => (stringOf? key).map fun k => (k, value)

/-- The value given to a name, which may be absent but not repeated. -/
def memberNamed? (members : List (String × Raw)) (name : String) : Option (Option Raw) :=
  match members.filter (fun member => member.1 == name) with
  | [] => some none
  | [(_, value)] => some (some value)
  | _ => none

/-- The fields of a record in the order of their names.  Of an array the last `optional` fields
may be missing, of an object any field; the reader of the record decides which it needs. -/
def fields? (names : List String) (optional : Nat) : Raw → Option (List (Option Raw))
  | object members =>
    (namedMembers? members).bind fun members => names.mapM (memberNamed? members)
  | array items =>
    if items.length ≤ names.length && names.length ≤ items.length + optional then
      some (items.map some ++ List.replicate (names.length - items.length) none)
    else none
  | _ => none

end LeadScoring.Json.Raw
