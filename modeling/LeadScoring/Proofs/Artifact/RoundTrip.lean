import LeadScoring.Artifact.Document
import LeadScoring.Proofs.Json.Records

/-!
# Artifacts read back

The canonical text of an artifact reads back as that artifact, as far as the spellings of its
thresholds and probabilities denote them.

Main results:

- Definition `Artifact.fractions`: the fractional numbers of an artifact.
- Theorem `Vocabulary.ofRaw?_rawMembers`: vocabularies read back.
- Theorem `Artifact.parse?_canonical`: artifacts read back.
-/

namespace LeadScoring

open Json (Raw FractionText ReadsBack stringOf?_spellString)

variable {α : Type} [FractionText α]

/-! ## Vocabularies -/

/-- The name of a kind is read back as the kind. -/
theorem FieldKind.ofRaw?_name (kind : FieldKind) :
    FieldKind.ofRaw? (Raw.ofString kind.name) = some kind := by
  rw [Raw.ofString, FieldKind.ofRaw?, stringOf?_spellString]
  cases kind <;> rfl

namespace Json

/-- An array of strings as it is written. -/
theorem toRaw_sorted_ofStrings (texts : List String) :
    (Json.ofStrings texts : Json α).sorted.toRaw = .array (texts.map Raw.ofString) := by
  rw [Json.ofStrings, sorted_array, toRaw_array, List.map_map, List.map_map]
  refine congrArg Raw.array (List.map_congr_left fun text _ => ?_)
  exact toRaw_string (α := α) text

/-- Texts in an array are read back as the texts. -/
theorem Raw.items?_ofStrings (texts : List String) :
    (Raw.array (texts.map Raw.ofString)).items? Raw.text? = some texts :=
  Raw.items?_map fun text _ => Raw.text?_ofString text

/-- Texts in an array are well spelled. -/
theorem Raw.wellSpelled_ofStrings (texts : List String) :
    (Raw.array (texts.map Raw.ofString)).WellSpelled := by
  refine Raw.wellSpelled_array fun item hitem => ?_
  obtain ⟨text, -, rfl⟩ := List.mem_map.1 hitem
  exact Raw.wellSpelled_ofString text

end Json

namespace Field

/-- The members of a field as it is written, sorted by name. -/
def rawMembers (f : Field) : List (String × Raw) :=
  (if f.aliases.isEmpty then [] else [("aliases", .array (f.aliases.map Raw.ofString))]) ++
    [("kind", Raw.ofString f.kind.name), ("name", Raw.ofString f.name)]

/-- A field is written with its members in order. -/
theorem toRaw_sorted (f : Field) : (f.toJson : Json α).sorted.toRaw = Raw.record f.rawMembers := by
  cases haliases : f.aliases.isEmpty with
  | true =>
    have hsorted : (f.toJson : Json α).sorted =
        .object [("kind", .string f.kind.name), ("name", .string f.name)] := by
      rw [toJson, haliases]
      rfl
    rw [hsorted, Json.toRaw_object, rawMembers, haliases]
    simp [Json.toRaw_string]
  | false =>
    have hsorted : (f.toJson : Json α).sorted =
        .object [("aliases", (Json.ofStrings f.aliases).sorted), ("kind", .string f.kind.name),
          ("name", .string f.name)] := by
      rw [toJson, haliases]
      rfl
    rw [hsorted, Json.toRaw_object, rawMembers, haliases]
    simp [Json.toRaw_string, Json.toRaw_sorted_ofStrings]

/-- Fields are well spelled. -/
theorem wellSpelled_rawMembers (f : Field) : (Raw.record f.rawMembers).WellSpelled := by
  refine Raw.wellSpelled_record fun member hmember => ?_
  unfold rawMembers at hmember
  rcases List.mem_append.1 hmember with hmember | hmember
  · split_ifs at hmember
    · cases hmember
    · rw [List.mem_singleton.1 hmember]
      exact Raw.wellSpelled_ofStrings f.aliases
  · simp only [List.mem_cons, List.not_mem_nil, or_false] at hmember
    rcases hmember with rfl | rfl <;> exact Raw.wellSpelled_ofString _

/-- Fields read back. -/
theorem ofRaw?_rawMembers (f : Field) : Field.ofRaw? (Raw.record f.rawMembers) = some f := by
  obtain ⟨name, kind, aliases⟩ := f
  rw [Field.ofRaw?, Raw.fields?_record, rawMembers]
  cases aliases with
  | nil => simp [Raw.memberNamed?, Raw.text?_ofString, FieldKind.ofRaw?_name, Raw.items?]
  | cons first others =>
    have hitems := Raw.items?_ofStrings (first :: others)
    rw [List.map_cons] at hitems
    simp [Raw.memberNamed?, Raw.text?_ofString, FieldKind.ofRaw?_name, hitems]

end Field

namespace Vocabulary

/-- The members of a vocabulary as it is written, sorted by name. -/
def rawMembers (v : Vocabulary) : List (String × Raw) :=
  [("fields", .array (v.fields.map fun f => Raw.record f.rawMembers)),
   ("names", .array (v.names.map Raw.ofString))]

/-- A vocabulary is written with its members in order. -/
theorem toRaw_sorted (v : Vocabulary) :
    (v.toJson : Json α).sorted.toRaw = Raw.record v.rawMembers := by
  have hsorted : (v.toJson : Json α).sorted =
      .object [("fields", (Json.array (v.fields.map Field.toJson)).sorted),
        ("names", (Json.ofStrings v.names).sorted)] :=
    rfl
  have hfields : (Json.array (v.fields.map Field.toJson) : Json α).sorted.toRaw =
      .array (v.fields.map fun f => Raw.record f.rawMembers) := by
    rw [Json.sorted_array, Json.toRaw_array, List.map_map, List.map_map]
    exact congrArg Raw.array (List.map_congr_left fun f _ => Field.toRaw_sorted f)
  rw [hsorted, Json.toRaw_object, rawMembers]
  simp [hfields, Json.toRaw_sorted_ofStrings]

/-- Vocabularies are well spelled. -/
theorem wellSpelled_rawMembers (v : Vocabulary) : (Raw.record v.rawMembers).WellSpelled := by
  refine Raw.wellSpelled_record fun member hmember => ?_
  simp only [rawMembers, List.mem_cons, List.not_mem_nil, or_false] at hmember
  rcases hmember with rfl | rfl
  · refine Raw.wellSpelled_array fun item hitem => ?_
    obtain ⟨f, -, rfl⟩ := List.mem_map.1 hitem
    exact f.wellSpelled_rawMembers
  · exact Raw.wellSpelled_ofStrings v.names

/-- Distinct names are their own first occurrences. -/
theorem firstOccurrences_of_nodup {names : List String} (h : names.Nodup) :
    firstOccurrences names = names := by
  induction names with
  | nil => rfl
  | cons name names ih =>
    rw [List.nodup_cons] at h
    rw [firstOccurrences, ih h.2, List.filter_eq_self.2]
    intro other hother
    have hne : other ≠ name := by
      rintro rfl
      exact h.1 hother
    simpa using hne

/-- The members of a document of names and fields, sorted by name. -/
def documentMembers (names : List String) (fields : List Field) : List (String × Raw) :=
  [("fields", .array (fields.map fun f => Raw.record f.rawMembers)),
   ("names", .array (names.map Raw.ofString))]

/-- A document is read as the vocabulary of its names, which may repeat. -/
theorem ofRaw?_documentMembers (names : List String) (fields : List Field) :
    Vocabulary.ofRaw? (Raw.record (documentMembers names fields)) = some (ofNames names fields) := by
  have hfields : (Raw.array (fields.map fun f => Raw.record f.rawMembers)).items? Field.ofRaw? =
      some fields :=
    Raw.items?_map fun f _ => f.ofRaw?_rawMembers
  rw [Vocabulary.ofRaw?, Raw.fields?_record, documentMembers]
  simp [Raw.memberNamed?, hfields, Raw.items?_ofStrings]

/-- Vocabularies read back, since their names are distinct. -/
theorem ofRaw?_rawMembers (v : Vocabulary) :
    Vocabulary.ofRaw? (Raw.record v.rawMembers) = some v := by
  have hnames : ofNames v.names v.fields = v := by
    obtain ⟨names, fields, hnodup⟩ := v
    simp only [ofNames, firstOccurrences_of_nodup hnodup]
  have hread := ofRaw?_documentMembers v.names v.fields
  rwa [hnames] at hread

end Vocabulary

/-! ## Nodes -/

namespace CompiledNode

/-- The fractional number of a node. -/
def fraction : CompiledNode α → α
  | split _ threshold _ _ => threshold
  | leaf probability => probability

/-- The members of a node as it is written, sorted by name. -/
def rawMembers : CompiledNode α → List (String × Raw)
  | split feature threshold left right =>
    [("feature", Raw.ofString feature), ("kind", Raw.ofString "split"),
     ("left", Raw.ofDigits left.toNat), ("right", Raw.ofDigits right.toNat),
     ("threshold", .number (FractionText.spell threshold))]
  | leaf probability =>
    [("kind", Raw.ofString "leaf"), ("probability", .number (FractionText.spell probability))]

/-- A node is written with its members in order. -/
theorem toRaw_sorted (n : CompiledNode α) : n.toJson.sorted.toRaw = Raw.record n.rawMembers := by
  cases n with
  | split feature threshold left right =>
    have hsorted : (split feature threshold left right : CompiledNode α).toJson.sorted =
        .object [("feature", .string feature), ("kind", .string "split"),
          ("left", Json.ofNat left.toNat), ("right", Json.ofNat right.toNat),
          ("threshold", Json.ofFraction threshold)] :=
      rfl
    rw [hsorted, Json.toRaw_object, rawMembers]
    simp [Json.toRaw_string, Json.toRaw_ofNat, Json.toRaw_ofFraction]
  | leaf probability =>
    have hsorted : (leaf probability : CompiledNode α).toJson.sorted =
        .object [("kind", .string "leaf"), ("probability", Json.ofFraction probability)] :=
      rfl
    rw [hsorted, Json.toRaw_object, rawMembers]
    simp [Json.toRaw_string, Json.toRaw_ofFraction]

/-- Nodes are well spelled if their numbers are. -/
theorem wellSpelled_rawMembers {n : CompiledNode α} (h : ReadsBack n.fraction) :
    (Raw.record n.rawMembers).WellSpelled := by
  have hnumber : (Raw.number (FractionText.spell n.fraction)).WellSpelled := by
    rw [Raw.WellSpelled]
    exact h.1
  refine Raw.wellSpelled_record fun member hmember => ?_
  cases n with
  | split feature threshold left right =>
    simp only [rawMembers, List.mem_cons, List.not_mem_nil, or_false] at hmember
    rcases hmember with rfl | rfl | rfl | rfl | rfl
    · exact Raw.wellSpelled_ofString feature
    · exact Raw.wellSpelled_ofString "split"
    · exact Raw.wellSpelled_ofDigits left.toNat
    · exact Raw.wellSpelled_ofDigits right.toNat
    · exact hnumber
  | leaf probability =>
    simp only [rawMembers, List.mem_cons, List.not_mem_nil, or_false] at hmember
    rcases hmember with rfl | rfl
    · exact Raw.wellSpelled_ofString "leaf"
    · exact hnumber

/-- A slot of 32 bits reads back. -/
theorem slotOfRaw?_ofDigits (slot : UInt32) :
    slotOfRaw? (Raw.ofDigits slot.toNat) = some slot := by
  have hlt : slot.toNat < 0x100000000 := slot.toNat_lt
  rw [slotOfRaw?, Raw.word?_ofDigits hlt (by omega)]
  simp

/-- Every part of a node can be read, as is asked of tagged values. -/
theorem isSome_ofRaw?_rawMembers {n : CompiledNode α} (h : ReadsBack n.fraction) (limit : Nat) :
    ∃ value : Json α, Json.ofRaw? (limit + 1) (Raw.record n.rawMembers) = some value := by
  have hint : ∀ m : Nat, m < 0x10000000000000000 →
      (Json.Number.ofSpelling? (Nat.toDigits 10 m) : Option (Json.Number α)) = some (.int m) := by
    intro m hm
    rw [Json.Number.ofSpelling?, Json.intOfSpelling?_toDigits hm]
  obtain ⟨number, hnumber⟩ := Json.isSome_ofSpelling? h
  cases n with
  | split feature threshold left right =>
    have hleft : left.toNat < 0x10000000000000000 := lt_of_lt_of_le left.toNat_lt (by omega)
    have hright : right.toNat < 0x10000000000000000 := lt_of_lt_of_le right.toNat_lt (by omega)
    simp only [fraction] at hnumber
    simp [Raw.record, rawMembers, Json.ofRaw?, Json.membersOfRaw?, stringOf?_spellString,
      Raw.ofString, Raw.ofDigits, hint _ hleft, hint _ hright, hnumber]
  | leaf probability =>
    simp only [fraction] at hnumber
    simp [Raw.record, rawMembers, Json.ofRaw?, Json.membersOfRaw?, stringOf?_spellString,
      Raw.ofString, hnumber]

/-- Nodes whose number reads back do so too. -/
theorem ofRaw?_rawMembers {n : CompiledNode α} (h : ReadsBack n.fraction) :
    CompiledNode.ofRaw? (Raw.record n.rawMembers) = some n := by
  have hfraction : (Raw.number (FractionText.spell n.fraction)).fraction? = some n.fraction := h.2
  obtain ⟨value, hvalue⟩ := isSome_ofRaw?_rawMembers h 122
  have hreadable : (Json.ofRaw? nestingLeft (Raw.record n.rawMembers) : Option (Json α)) =
      some value :=
    hvalue
  have htag : ∀ tag : Raw, (Raw.record n.rawMembers).fields? ["kind"] 0 = some [some tag] →
      CompiledNode.ofRaw? (Raw.record n.rawMembers) =
        tag.text?.bind fun tag => (ofTagged? tag (Raw.record n.rawMembers) :
          Option (CompiledNode α)) := by
    intro tag hfields
    rw [Raw.record] at hfields hreadable ⊢
    rw [CompiledNode.ofRaw?, hreadable]
    · simp only [hfields]
    · intro _ _ harray
      cases harray
  cases n with
  | split feature threshold left right =>
    rw [htag (Raw.ofString "split") (by rw [Raw.fields?_record]; rfl), Raw.text?_ofString,
      Option.bind_some, ofTagged?, if_pos rfl, Raw.fields?_record]
    simp only [fraction] at hfraction
    simp [rawMembers, Raw.memberNamed?, splitOfFields?, Raw.text?_ofString, hfraction,
      slotOfRaw?_ofDigits]
  | leaf probability =>
    rw [htag (Raw.ofString "leaf") (by rw [Raw.fields?_record]; rfl), Raw.text?_ofString,
      Option.bind_some, ofTagged?, if_neg (by decide), if_pos rfl, Raw.fields?_record]
    simp only [fraction] at hfraction
    simp [rawMembers, Raw.memberNamed?, leafOfFields?, hfraction]

end CompiledNode

/-! ## Trees and artifacts -/

namespace CompiledTree

/-- The members of a tree as it is written. -/
def rawMembers (t : CompiledTree α) : List (String × Raw) :=
  [("nodes", .array (t.nodes.toList.map fun n => Raw.record n.rawMembers))]

/-- A tree is written with its members in order. -/
theorem toRaw_sorted (t : CompiledTree α) : t.toJson.sorted.toRaw = Raw.record t.rawMembers := by
  have hsorted : t.toJson.sorted =
      .object [("nodes", (Json.array (t.nodes.toList.map CompiledNode.toJson)).sorted)] :=
    rfl
  have hnodes : (Json.array (t.nodes.toList.map CompiledNode.toJson)).sorted.toRaw =
      .array (t.nodes.toList.map fun n => Raw.record n.rawMembers) := by
    rw [Json.sorted_array, Json.toRaw_array, List.map_map, List.map_map]
    exact congrArg Raw.array (List.map_congr_left fun n _ => CompiledNode.toRaw_sorted n)
  rw [hsorted, Json.toRaw_object, rawMembers]
  simp [hnodes]

/-- Trees are well spelled if the numbers of their nodes are. -/
theorem wellSpelled_rawMembers {t : CompiledTree α}
    (h : ∀ n ∈ t.nodes.toList, ReadsBack n.fraction) : (Raw.record t.rawMembers).WellSpelled := by
  refine Raw.wellSpelled_record fun member hmember => ?_
  rw [rawMembers, List.mem_singleton] at hmember
  rw [hmember]
  refine Raw.wellSpelled_array fun item hitem => ?_
  obtain ⟨n, hn, rfl⟩ := List.mem_map.1 hitem
  exact CompiledNode.wellSpelled_rawMembers (h n hn)

/-- Trees whose numbers read back do so too. -/
theorem ofRaw?_rawMembers {t : CompiledTree α} (h : ∀ n ∈ t.nodes.toList, ReadsBack n.fraction) :
    CompiledTree.ofRaw? (Raw.record t.rawMembers) = some t := by
  have hnodes : (Raw.array (t.nodes.toList.map fun n => Raw.record n.rawMembers)).items?
      CompiledNode.ofRaw? = some t.nodes.toList :=
    Raw.items?_map fun n hn => CompiledNode.ofRaw?_rawMembers (h n hn)
  rw [CompiledTree.ofRaw?, Raw.fields?_record, rawMembers]
  simp [Raw.memberNamed?, hnodes]

end CompiledTree

namespace Artifact

omit [FractionText α] in
/-- The fractional numbers of an artifact. -/
def fractions (a : Artifact α) : List α :=
  a.trees.flatMap fun t => t.nodes.toList.map CompiledNode.fraction

/-- The members of an artifact as it is written, sorted by name. -/
def rawMembers (a : Artifact α) : List (String × Raw) :=
  [("format_version", Raw.ofDigits a.formatVersion.toNat),
   ("trees", .array (a.trees.map fun t => Raw.record t.rawMembers)),
   ("vocabulary", Raw.record a.vocabulary.rawMembers)]

/-- An artifact is written with its members in order. -/
theorem toRaw_sorted (a : Artifact α) : a.toJson.sorted.toRaw = Raw.record a.rawMembers := by
  have hsorted : a.toJson.sorted =
      .object [("format_version", Json.ofNat a.formatVersion.toNat),
        ("trees", (Json.array (a.trees.map CompiledTree.toJson)).sorted),
        ("vocabulary", a.vocabulary.toJson.sorted)] :=
    rfl
  have htrees : (Json.array (a.trees.map CompiledTree.toJson)).sorted.toRaw =
      .array (a.trees.map fun t => Raw.record t.rawMembers) := by
    rw [Json.sorted_array, Json.toRaw_array, List.map_map, List.map_map]
    exact congrArg Raw.array (List.map_congr_left fun t _ => CompiledTree.toRaw_sorted t)
  rw [hsorted, Json.toRaw_object, rawMembers]
  simp [htrees, Json.toRaw_ofNat, Vocabulary.toRaw_sorted]

section ReadBack

variable {a : Artifact α}

theorem readsBack_fraction (h : ∀ x ∈ a.fractions, ReadsBack x) :
    ∀ t ∈ a.trees, ∀ n ∈ t.nodes.toList, ReadsBack n.fraction :=
  fun _ ht _ hn => h _ (List.mem_flatMap.2 ⟨_, ht, List.mem_map_of_mem hn⟩)

/-- Artifacts are well spelled if their numbers are. -/
theorem wellSpelled_rawMembers (h : ∀ x ∈ a.fractions, ReadsBack x) :
    (Raw.record a.rawMembers).WellSpelled := by
  refine Raw.wellSpelled_record fun member hmember => ?_
  simp only [rawMembers, List.mem_cons, List.not_mem_nil, or_false] at hmember
  rcases hmember with rfl | rfl | rfl
  · exact Raw.wellSpelled_ofDigits a.formatVersion.toNat
  · refine Raw.wellSpelled_array fun item hitem => ?_
    obtain ⟨t, ht, rfl⟩ := List.mem_map.1 hitem
    exact CompiledTree.wellSpelled_rawMembers (readsBack_fraction h t ht)
  · exact a.vocabulary.wellSpelled_rawMembers

/-- Artifacts whose numbers read back do so too. -/
theorem ofRaw?_rawMembers (h : ∀ x ∈ a.fractions, ReadsBack x) :
    Artifact.ofRaw? (Raw.record a.rawMembers) = some a := by
  have hversion : (Raw.ofDigits a.formatVersion.toNat).word? 0x100000000 =
      some a.formatVersion.toNat :=
    Raw.word?_ofDigits a.formatVersion.toNat_lt (by omega)
  have htrees : (Raw.array (a.trees.map fun t => Raw.record t.rawMembers)).items?
      CompiledTree.ofRaw? = some a.trees :=
    Raw.items?_map fun t ht => CompiledTree.ofRaw?_rawMembers (readsBack_fraction h t ht)
  rw [Artifact.ofRaw?, Raw.fields?_record]
  simp [rawMembers, Raw.memberNamed?, hversion, htrees, Vocabulary.ofRaw?_rawMembers]

/-- The stored text of an artifact reads back as the artifact. -/
theorem parse?_canonical (h : ∀ x ∈ a.fractions, ReadsBack x) :
    Artifact.parse? a.canonical = some a := by
  have hparse : Raw.parse? a.toJson.canonical = some a.toJson.sorted.toRaw := by
    refine Json.parse?_canonical ?_
    rw [toRaw_sorted]
    exact wellSpelled_rawMembers h
  rw [Artifact.parse?, canonical, hparse, Option.bind_some, toRaw_sorted, ofRaw?_rawMembers h]

end ReadBack

end Artifact

end LeadScoring
