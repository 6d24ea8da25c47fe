import LeadScoring.Json.Value
import LeadScoring.Proofs.Json.Reading
import LeadScoring.Proofs.Outcome

/-!
# Records read back

Typed documents are written as objects and read field by field.  A record is an object whose keys
are spelled as strings; its fields are found by name wherever they stand.

Main results:

- Definition `Raw.record`: an object with string keys, with `Json.toRaw_object` and
  `Raw.wellSpelled_record`.
- Theorem `Raw.fields?_record`: the fields of a record by their names.
- Theorems `Raw.items?_map`, `Raw.text?_ofString`, `Raw.word?_ofDigits`: the parts.
- Theorem `parse?_canonical`: canonical texts read back.
-/

namespace LeadScoring.Json

namespace Raw

/-- An object with string keys. -/
def record (members : List (String × Raw)) : Raw :=
  .object (members.map fun member => (spellString member.1, member.2))

/-- A string literal. -/
def ofString (s : String) : Raw :=
  .string (spellString s)

/-- The digits of a natural number as a literal. -/
def ofDigits (n : Nat) : Raw :=
  .number (Nat.toDigits 10 n)

/-! ## Well-spelled parts -/

theorem wellSpelled_ofString (s : String) : (ofString s).WellSpelled := by
  rw [ofString, WellSpelled]
  exact ⟨s.toList, rfl⟩

theorem wellSpelled_ofDigits (n : Nat) : (ofDigits n).WellSpelled := by
  rw [ofDigits, WellSpelled]
  exact isNumber_toDigits n

theorem wellSpelled_array {items : List Raw} (h : ∀ item ∈ items, item.WellSpelled) :
    (Raw.array items).WellSpelled := by
  rw [WellSpelled]
  induction items with
  | nil =>
    rw [ItemsWellSpelled]
    trivial
  | cons item items ih =>
    rw [ItemsWellSpelled]
    exact ⟨h item List.mem_cons_self,
      ih fun other hother => h other (List.mem_cons_of_mem item hother)⟩

theorem wellSpelled_record {members : List (String × Raw)}
    (h : ∀ member ∈ members, member.2.WellSpelled) : (record members).WellSpelled := by
  rw [record, WellSpelled]
  induction members with
  | nil =>
    rw [List.map_nil, MembersWellSpelled]
    trivial
  | cons member members ih =>
    rw [List.map_cons, MembersWellSpelled]
    exact ⟨⟨member.1.toList, rfl⟩, h member List.mem_cons_self,
      ih fun other hother => h other (List.mem_cons_of_mem member hother)⟩

/-! ## Reading parts -/

theorem namedMembers?_record (members : List (String × Raw)) :
    namedMembers? (members.map fun member => (spellString member.1, member.2)) = some members := by
  rw [namedMembers?, Outcome.mapM_eq_some_iff, List.forall₂_map_left_iff, List.forall₂_same]
  intro member _
  simp only [stringOf?_spellString, Option.map_some]

/-- The fields of a record are those of its members that have the names asked for. -/
theorem fields?_record (names : List String) (optional : Nat) (members : List (String × Raw)) :
    (record members).fields? names optional = names.mapM (memberNamed? members) := by
  rw [record, fields?, namedMembers?_record]
  rfl

/-- An array is read if each of its items is. -/
theorem items?_map {β : Type} {read : Raw → Option β} {write : β → Raw} {xs : List β}
    (h : ∀ x ∈ xs, read (write x) = some x) : (Raw.array (xs.map write)).items? read = some xs := by
  rw [items?, Outcome.mapM_eq_some_iff, List.forall₂_map_left_iff, List.forall₂_same]
  exact h

theorem text?_ofString (s : String) : (ofString s).text? = some s :=
  stringOf?_spellString s

theorem word?_ofDigits {n bound : Nat} (h : n < bound) (hbound : bound ≤ 0x10000000000000000) :
    (ofDigits n).word? bound = some n := by
  have hwhole : (ofDigits n).wholeNumber? = some (n : Int) :=
    intOfSpelling?_toDigits (by omega)
  have hin : ((0 : Int) ≤ (n : Int) && ((n : Int) < (bound : Int))) = true := by
    simp only [Bool.and_eq_true, decide_eq_true_eq]
    omega
  rw [word?, hwhole]
  dsimp only
  rw [if_pos hin, Int.toNat_natCast]

end Raw

/-! ## Writing parts -/

section Writing

variable {α : Type} [FractionText α]

theorem itemsToRaw_eq (items : List (Json α)) : itemsToRaw items = items.map toRaw := by
  induction items with
  | nil => rfl
  | cons item items ih => rw [itemsToRaw, ih, List.map_cons]

theorem membersToRaw_eq (members : List (String × Json α)) :
    membersToRaw members = members.map fun member => (spellString member.1, member.2.toRaw) := by
  induction members with
  | nil => rfl
  | cons member members ih => rw [membersToRaw, ih, List.map_cons]

/-- An object is written as a record of what its members are written as. -/
theorem toRaw_object (members : List (String × Json α)) :
    (Json.object members).toRaw =
      Raw.record (members.map fun member => (member.1, member.2.toRaw)) := by
  rw [toRaw, membersToRaw_eq, Raw.record, List.map_map]
  rfl

theorem toRaw_array (items : List (Json α)) :
    (Json.array items).toRaw = .array (items.map toRaw) := by
  rw [toRaw, itemsToRaw_eq]

omit [FractionText α] in
theorem sorted_array (items : List (Json α)) :
    (Json.array items).sorted = .array (items.map sorted) := by
  have hitems : ∀ xs : List (Json α), sortedItems xs = xs.map sorted := by
    intro xs
    induction xs with
    | nil => rfl
    | cons x xs ih => rw [sortedItems, ih, List.map_cons]
  rw [sorted, hitems]

theorem toRaw_string (s : String) : (Json.string s : Json α).toRaw = Raw.ofString s := by
  rw [toRaw, Raw.ofString]

theorem toRaw_ofNat (n : Nat) : (Json.ofNat n : Json α).toRaw = Raw.ofDigits n := by
  rw [Json.ofNat, toRaw, Number.spell, spellInt_natCast, Raw.ofDigits]

theorem toRaw_ofFraction (x : α) :
    (Json.ofFraction x).toRaw = .number (FractionText.spell x) := by
  rw [Json.ofFraction, toRaw, Number.spell]

/-- A canonical text reads back as the tree that the sorted value is written as. -/
theorem parse?_canonical {value : Json α} (h : value.sorted.toRaw.WellSpelled) :
    Raw.parse? value.canonical = some value.sorted.toRaw :=
  Raw.parse?_compact h

end Writing

end LeadScoring.Json
