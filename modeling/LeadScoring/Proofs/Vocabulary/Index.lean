import LeadScoring.Proofs.Artifact.RoundTrip
import LeadScoring.Proofs.Vocabulary.Encoding
import LeadScoring.Proofs.Vocabulary.Listing

/-!
# Slots of names

A vocabulary gives every name the slot at which it stands, and encoding, compiling and scoring find
values by these slots.  A table of slots is made in one pass over the names, which gives a new name
the next slot and drops a name that has one.  It is shown here to be the exact inverse of the list of
kept names, whichever way the vocabulary was obtained.

Main results:

- Definition `KeepsFirst` and theorem `keepsFirst_firstOccurrences`: which names are kept.
- Definition `NameIndex` and theorem `NameIndex.exact_ofNames`: the table is an inverse of the list.
- Theorem `NameIndex.toList_names_ofNames`: the pass keeps the first occurrences.
- Theorem `NameIndex.encode?_eq`: encoding by the table never leaves the values.
- Theorem `Vocabulary.Obtained.indexes`: all of it for every vocabulary.
-/

namespace LeadScoring

open Json (Raw)

/-! ## Kept names -/

/-- The members of a list once each, in the order in which they first occur in it. -/
structure KeepsFirst (names kept : List String) : Prop where
  nodup : kept.Nodup
  mem_iff : ∀ name, name ∈ kept ↔ name ∈ names
  in_order : kept.Pairwise fun name other => names.idxOf name < names.idxOf other

/-- The first occurrences of names keep the first of each. -/
theorem keepsFirst_firstOccurrences (names : List String) :
    KeepsFirst names (firstOccurrences names) := by
  refine ⟨nodup_firstOccurrences names, fun _ => mem_firstOccurrences, ?_⟩
  induction names with
  | nil => exact List.Pairwise.nil
  | cons first names ih =>
    -- Every name but the first one stands one place later than in the rest of the list.
    have hlater : ∀ {name}, name ∈ (firstOccurrences names).filter (fun other => other != first) →
        (first :: names).idxOf name = names.idxOf name + 1 := by
      intro name hname
      have hne : name ≠ first := by simpa using (List.mem_filter.1 hname).2
      rw [List.idxOf_cons_ne _ (Ne.symm hne)]
    refine List.pairwise_cons.2 ⟨fun name hname => ?_, ?_⟩
    · rw [List.idxOf_cons_self, hlater hname]
      exact Nat.succ_pos _
    · refine (ih.filter _).imp_of_mem fun hname hother hlt => ?_
      rw [hlater hname, hlater hother]
      exact Nat.succ_lt_succ hlt

/-! ## The table of slots -/

/-- Names in their order, with a table of the slot of each. -/
structure NameIndex where
  names : Array String
  slots : Std.HashMap String ℕ

namespace NameIndex

def empty : NameIndex :=
  ⟨#[], ∅⟩

/-- Gives a name the next slot, unless it has one. -/
def insert (index : NameIndex) (name : String) : NameIndex :=
  if index.slots.contains name then index
  else ⟨index.names.push name, index.slots.insert name index.names.size⟩

/-- The names of a list with their slots. -/
def ofNames (names : List String) : NameIndex :=
  names.foldl insert empty

/-- The table is the inverse of the names. -/
def Exact (index : NameIndex) : Prop :=
  ∀ (name : String) (slot : ℕ), index.slots[name]? = some slot ↔ index.names[slot]? = some name

variable {index : NameIndex}

theorem exact_empty : empty.Exact := by
  intro name slot
  simp [empty]

/-- A name is in the table if it is listed. -/
theorem Exact.contains_iff (h : index.Exact) {name : String} :
    index.slots.contains name = true ↔ name ∈ index.names := by
  rw [Std.HashMap.contains_eq_isSome_getElem?, Option.isSome_iff_exists, Array.mem_iff_getElem?]
  exact exists_congr fun slot => h name slot

/-- A name that takes the next slot moves no other one. -/
theorem Exact.insert (h : index.Exact) (name : String) : (index.insert name).Exact := by
  unfold NameIndex.insert
  split_ifs with hknown
  · exact h
  · intro other slot
    have hfresh : name ∉ index.names := fun hmem => hknown (h.contains_iff.2 hmem)
    dsimp only
    rw [Std.HashMap.getElem?_insert, Array.getElem?_push]
    by_cases hname : name = other
    · -- The new name stands in the last slot, and stood in none before.
      subst hname
      have hnone : ∀ slot, index.names[slot]? ≠ some name := fun slot hslot =>
        hfresh (Array.mem_iff_getElem?.2 ⟨slot, hslot⟩)
      rw [beq_self_eq_true, if_pos rfl]
      split_ifs with hlast
      · simp [hlast]
      · simp only [hnone, Option.some.injEq, iff_false]
        exact fun heq => hlast heq.symm
    · rw [if_neg (by simpa using hname), h other slot]
      split_ifs with hlast
      · simp [hlast, hname]
      · rfl

/-- Inserting names keeps the table exact. -/
theorem Exact.foldl_insert (h : index.Exact) (names : List String) :
    (names.foldl NameIndex.insert index).Exact := by
  induction names generalizing index with
  | nil => exact h
  | cons name names ih => exact ih (h.insert name)

/-- The table that one pass makes is the inverse of the names that it keeps. -/
theorem exact_ofNames (names : List String) : (ofNames names).Exact :=
  exact_empty.foldl_insert names

/-- Further names are kept in the order of their first occurrence, if they are not listed yet. -/
theorem Exact.toList_names_foldl_insert (h : index.Exact) (names : List String) :
    (names.foldl NameIndex.insert index).names.toList =
      index.names.toList ++ (firstOccurrences names).filter fun name => name ∉ index.names := by
  induction names generalizing index with
  | nil => simp [firstOccurrences]
  | cons first names ih =>
    rw [List.foldl_cons, ih (h.insert first), firstOccurrences]
    by_cases hknown : first ∈ index.names
    · have hsame : index.insert first = index := if_pos (h.contains_iff.2 hknown)
      rw [hsame, List.filter_cons_of_neg (by simpa using hknown), List.filter_filter]
      congr 1
      refine List.filter_congr fun name _ => ?_
      by_cases hname : name = first <;> simp [hname, hknown]
    · have hpush : (index.insert first).names = index.names.push first := by
        rw [NameIndex.insert, if_neg fun hcontains => hknown (h.contains_iff.1 hcontains)]
      rw [hpush, List.filter_cons_of_pos (by simpa using hknown), List.filter_filter,
        Array.toList_push, List.append_assoc, List.singleton_append]
      congr 2
      refine List.filter_congr fun name _ => ?_
      by_cases hname : name = first <;> simp [hname]

/-- One pass keeps the first occurrences of the names. -/
theorem toList_names_ofNames (names : List String) :
    (ofNames names).names.toList = firstOccurrences names := by
  rw [ofNames, exact_empty.toList_names_foldl_insert]
  simp [empty]

/-- The table of one pass and the list of names of a vocabulary give every name the same slot. -/
theorem getElem?_slots_ofNames (names : List String) (fields : List Field) (name : String) :
    (ofNames names).slots[name]? = (Vocabulary.ofNames names fields).indexOf? name := by
  ext slot
  rw [exact_ofNames, Vocabulary.indexOf?_eq_some_iff, ← Array.getElem?_toList,
    toList_names_ofNames]
  rfl

/-! ## Encoding by slots -/

section Values

variable {α : Type}

/-- The values with the one in the slot of a name replaced, unless the slot lies outside. -/
def set? (index : NameIndex) (values : Array α) (name : String) (x : α) : Option (Array α) :=
  match index.slots[name]? with
  | some slot => if h : slot < values.size then some (values.set slot x h) else none
  | none => some values

/-- The value in the slot of a name, if it has one, unless the slot lies outside. -/
def get? (index : NameIndex) (values : Array α) (name : String) : Option (Option α) :=
  match index.slots[name]? with
  | some slot => if h : slot < values.size then some (some values[slot]) else none
  | none => some none

/-- A lead as one value per name: what the fields write is set, one after the other, unless a slot
lies outside of the values. -/
def encode? [Scalar α] (index : NameIndex) (fields : List Field) (lead : Lead) :
    Option (Array α) :=
  (fields.filterMap ( Vocabulary.entry? lead)).foldlM
    (fun values entry => index.set? values entry.1 entry.2) (Array.replicate index.names.size 0)

variable {names : List String} {fields : List Field}

theorem size_names_ofNames (names : List String) (fields : List Field) :
    (ofNames names).names.size = (Vocabulary.ofNames names fields).size := by
  rw [← Array.length_toList, toList_names_ofNames]
  rfl

/-- Writing by the table is writing by the vocabulary, and no slot lies outside. -/
theorem set?_eq {values : Array α} (hsize : values.size = (Vocabulary.ofNames names fields).size)
    (name : String) (x : α) :
    (ofNames names).set? values name x =
      some ((Vocabulary.ofNames names fields).set values name x) := by
  rw [set?, getElem?_slots_ofNames names fields, Vocabulary.set]
  cases hslot : (Vocabulary.ofNames names fields).indexOf? name with
  | none => rfl
  | some slot =>
    have hlt : slot < values.size := hsize ▸ Vocabulary.lt_size_of_indexOf? hslot
    dsimp only
    rw [dif_pos hlt, Array.setIfInBounds, dif_pos hlt]

/-- Reading by the table is reading by the vocabulary, and no slot lies outside. -/
theorem get?_eq {values : Array α} (hsize : values.size = (Vocabulary.ofNames names fields).size)
    (name : String) :
    (ofNames names).get? values name = some ((Vocabulary.ofNames names fields).get? values name) := by
  rw [get?, getElem?_slots_ofNames names fields, Vocabulary.get?]
  cases hslot : (Vocabulary.ofNames names fields).indexOf? name with
  | none => rfl
  | some slot =>
    have hlt : slot < values.size := hsize ▸ Vocabulary.lt_size_of_indexOf? hslot
    dsimp only
    rw [dif_pos hlt, Option.bind_some, Array.getElem?_eq_getElem hlt]

/-- Values that are set one after the other keep their number, so no slot lies outside. -/
theorem foldlM_set?_eq (entries : List (String × α)) {values : Array α}
    (hsize : values.size = (Vocabulary.ofNames names fields).size) :
    entries.foldlM (fun values entry => (ofNames names).set? values entry.1 entry.2) values =
      some (entries.foldl
        (fun values entry => (Vocabulary.ofNames names fields).set values entry.1 entry.2)
        values) := by
  induction entries generalizing values with
  | nil => rfl
  | cons entry entries ih =>
    rw [List.foldlM_cons, List.foldl_cons, set?_eq hsize]
    exact ih ((Vocabulary.size_set _ _ _ _).trans hsize)

/-- Encoding by the table of one pass never leaves the values. -/
theorem encode?_eq [Scalar α] (names : List String) (fields : List Field) (lead : Lead) :
    (ofNames names).encode? fields lead =
      some ((Vocabulary.ofNames names fields).encode lead : Array α) := by
  rw [encode?, size_names_ofNames names fields, foldlM_set?_eq _ Array.size_replicate,
    Vocabulary.encode_eq_foldl]
  rfl

end Values

end NameIndex

/-! ## All vocabularies -/

namespace Vocabulary

/-- The names that a JSON tree lists in its part `names`, repetitions included; none if it has no
such part. -/
def listedNames (r : Raw) : List String :=
  match r.fields? ["names", "fields"] 0 with
  | some [some names, _] => (names.items? Raw.text?).getD []
  | _ => []

/-- A document lists all names that are written into it. -/
theorem listedNames_documentMembers (names : List String) (fields : List Field) :
    listedNames (Raw.record (documentMembers names fields)) = names := by
  rw [listedNames, Raw.fields?_record]
  simp [documentMembers, Raw.memberNamed?, Json.Raw.items?_ofStrings]

/-- A vocabulary that is decoded is the one of the names that its document lists. -/
theorem eq_ofNames_of_ofRaw? {r : Raw} {v : Vocabulary} (h : ofRaw? r = some v) :
    v = ofNames (listedNames r) v.fields := by
  unfold ofRaw? at h
  split at h
  · rename_i names fields hparts
    split at h
    · rename_i listed read hnames hfields
      cases h
      simp only [listedNames, hparts, hnames, Option.getD_some]
      rfl
    · cases h
  · cases h

/-- The ways to obtain a vocabulary, with the names that it is made from: names and fields are given,
they are derived from a table, or decoded from a JSON tree. -/
inductive Obtained : List String → Vocabulary → Prop
  | given (names : List String) (fields : List Field) : Obtained names (ofNames names fields)
  | derived (header : List String) (rows : List (List String)) (schema : Schema) :
      Obtained
        (directColumns header rows schema ++
          indicatorsInOrder header rows schema fun i => distinctSorted (filledCells rows i))
        (derive header rows schema)
  | decoded {r : Raw} {v : Vocabulary} (reads : ofRaw? r = some v) : Obtained (listedNames r) v

/-- In all of these ways later repetitions of a name are dropped. -/
theorem Obtained.eq_ofNames {names : List String} {v : Vocabulary} (h : Obtained names v) :
    v = ofNames names v.fields := by
  cases h with
  | given names fields => rfl
  | derived header rows schema =>
    rw [← flatMap_directInputs, ← flatMap_indicatorInputs]
    rfl
  | decoded reads => exact eq_ofNames_of_ofRaw? reads

/-- A vocabulary indexes names if it keeps the first occurrence of each, and positions, membership
and the table of one pass over the names agree with the list of kept names. -/
structure Indexes (v : Vocabulary) (names : List String) : Prop where
  keepsFirst : KeepsFirst names v.names
  indexOf?_iff : ∀ (name : String) (i : ℕ), v.indexOf? name = some i ↔ v.names[i]? = some name
  contains_eq : ∀ name, v.contains name = (v.indexOf? name).isSome
  names_eq : (NameIndex.ofNames names).names.toList = v.names
  slots_eq : ∀ name, (NameIndex.ofNames names).slots[name]? = v.indexOf? name ∧
    (NameIndex.ofNames names).slots.contains name = v.contains name

/-- The values of a lead by name: one for each name, found under the name at whose position it
stands and under no other, where no slot of the table lies outside of the values. -/
structure EncodesByName (α : Type) [Scalar α] (v : Vocabulary) (names : List String)
    (lead : Lead) : Prop where
  size_eq : (v.encode lead : Array α).size = v.names.length
  get?_eq : ∀ (i : ℕ) (name : String), v.names[i]? = some name → ∃ x : α,
    (v.encode lead : Array α)[i]? = some x ∧ v.get? (v.encode lead) name = some x
  get?_eq_none : ∀ name, v.contains name = false →
    v.get? (v.encode lead : Array α) name = none
  encode?_eq : (NameIndex.ofNames names).encode? v.fields lead = some (v.encode lead : Array α)
  index_get?_eq : ∀ name, (NameIndex.ofNames names).get? (v.encode lead : Array α) name =
    some (v.get? (v.encode lead) name)

/-- A vocabulary of names indexes them. -/
theorem indexes_ofNames (names : List String) (fields : List Field) :
    Indexes (ofNames names fields) names where
  keepsFirst := keepsFirst_firstOccurrences names
  indexOf?_iff _ _ := indexOf?_eq_some_iff
  contains_eq := contains_eq_isSome_indexOf? _
  names_eq := NameIndex.toList_names_ofNames names
  slots_eq name := by
    have hslot := NameIndex.getElem?_slots_ofNames names fields name
    rw [Std.HashMap.contains_eq_isSome_getElem?, hslot, contains_eq_isSome_indexOf?]
    exact ⟨rfl, rfl⟩

/-- A vocabulary of names encodes every lead by name. -/
theorem encodesByName_ofNames (α : Type) [Scalar α] (names : List String) (fields : List Field)
    (lead : Lead) : EncodesByName α (ofNames names fields) names lead where
  size_eq := size_encode _ lead
  get?_eq i name hname := by
    have hi : i < ((ofNames names fields).encode lead : Array α).size := by
      rw [size_encode]
      exact (List.getElem?_eq_some_iff.1 hname).1
    refine ⟨_, Array.getElem?_eq_getElem hi, ?_⟩
    rw [get?, indexOf?_eq_some_iff.2 hname, Option.bind_some, Array.getElem?_eq_getElem hi]
  get?_eq_none name hname := by
    rw [contains_eq_isSome_indexOf?, Option.isSome_eq_false_iff, Option.isNone_iff_eq_none] at hname
    rw [get?, hname, Option.bind_none]
  encode?_eq := NameIndex.encode?_eq names fields lead
  index_get?_eq := NameIndex.get?_eq (size_encode _ lead)

/-- However a vocabulary is obtained, it indexes the names that it is made from, and encodes every
lead as one value for each of them, found by name. -/
theorem Obtained.indexes {names : List String} {v : Vocabulary} (h : Obtained names v) :
    v.Indexes names ∧ ∀ (α : Type) [Scalar α] (lead : Lead), v.EncodesByName α names lead := by
  rw [h.eq_ofNames]
  exact ⟨indexes_ofNames names _, fun α _ lead => encodesByName_ofNames α names _ lead⟩

/-- A document that repeats a name: the repetition takes no slot from the names behind it. -/
theorem Obtained.indexes_repeatedName :
    ∃ v, Obtained ["Seats", "Seats", "Plan_Pro"] v ∧ v.names = ["Seats", "Plan_Pro"] ∧
      v.indexOf? "Plan_Pro" = some 1 ∧ v.Indexes ["Seats", "Seats", "Plan_Pro"] ∧
      ∀ lead, v.EncodesByName Float ["Seats", "Seats", "Plan_Pro"] lead := by
  have hread := Obtained.decoded (ofRaw?_documentMembers ["Seats", "Seats", "Plan_Pro"]
    [⟨"Seats", .numeric, []⟩, ⟨"Plan", .categorical, []⟩])
  rw [listedNames_documentMembers] at hread
  obtain ⟨hindexes, hencodes⟩ := Obtained.indexes hread
  exact ⟨_, hread, by decide, by decide, hindexes, hencodes Float⟩

end Vocabulary

end LeadScoring
