import LeadScoring.Artifact.Basic
import LeadScoring.Digest.Blake3
import LeadScoring.Vocabulary.Document

/-!
# Artifacts as documents

An artifact is stored as canonical JSON, so that equal artifacts have equal texts and equal
digests.  A node is an object tagged by its kind, or an array that starts with the tag.

Main definitions:

- `Artifact.canonical`, `Artifact.digest`: the stored text and its digest.
- `Artifact.parse?`: the artifact of a text.
-/

namespace LeadScoring

open Json (Raw FractionText)

variable {α : Type}

namespace CompiledNode

/-- The node as a JSON value. -/
def toJson : CompiledNode α → Json α
  | split feature threshold left right =>
    .object
      [("kind", .string "split"), ("feature", .string feature),
       ("threshold", Json.ofFraction threshold), ("left", Json.ofNat left.toNat),
       ("right", Json.ofNat right.toNat)]
  | leaf probability =>
    .object [("kind", .string "leaf"), ("probability", Json.ofFraction probability)]

/-- A position in a node table. -/
def slotOfRaw? (r : Raw) : Option UInt32 :=
  (r.word? 0x100000000).map UInt32.ofNat

variable [FractionText α]

/-- A split from its fields. -/
def splitOfFields? : List (Option Raw) → Option (CompiledNode α)
  | [some feature, some threshold, some left, some right] =>
    match feature.text?, (threshold.fraction? : Option α), slotOfRaw? left, slotOfRaw? right with
    | some feature, some threshold, some left, some right =>
      some (split feature threshold left right)
    | _, _, _, _ => none
  | _ => none

/-- A leaf from its fields. -/
def leafOfFields? : List (Option Raw) → Option (CompiledNode α)
  | [some probability] => (probability.fraction?).map leaf
  | _ => none

/-- A node from its tag and the tree of its fields. -/
def ofTagged? (tag : String) (r : Raw) : Option (CompiledNode α) :=
  if tag = "split" then
    (r.fields? ["feature", "threshold", "left", "right"] 0).bind splitOfFields?
  else if tag = "leaf" then (r.fields? ["probability"] 0).bind leafOfFields?
  else none

/-- The levels of nesting left for a node: four containers surround it. -/
def nestingLeft : Nat := Json.nestingLimit - 4

/-- The node of a tree.  Since the tag may stand anywhere, all of a node has to be readable,
members that nobody asks for included. -/
def ofRaw? (r : Raw) : Option (CompiledNode α) :=
  match (Json.ofRaw? nestingLeft r : Option (Json α)) with
  | none => none
  | some _ =>
    match r with
    | .array (tag :: fields) => tag.text?.bind fun tag => ofTagged? tag (.array fields)
    | r =>
      match r.fields? ["kind"] 0 with
      | some [some tag] => tag.text?.bind fun tag => ofTagged? tag r
      | _ => none

end CompiledNode

namespace CompiledTree

/-- The tree as a JSON value. -/
def toJson (t : CompiledTree α) : Json α :=
  .object [("nodes", .array (t.nodes.toList.map CompiledNode.toJson))]

/-- The tree of a tree of literals. -/
def ofRaw? [FractionText α] (r : Raw) : Option (CompiledTree α) :=
  match r.fields? ["nodes"] 0 with
  | some [some nodes] => (nodes.items? CompiledNode.ofRaw?).map fun ns => ⟨ns.toArray⟩
  | _ => none

end CompiledTree

namespace Artifact

/-- The artifact as a JSON value. -/
def toJson (a : Artifact α) : Json α :=
  .object
    [("format_version", Json.ofNat a.formatVersion.toNat), ("vocabulary", a.vocabulary.toJson),
     ("trees", .array (a.trees.map CompiledTree.toJson))]

variable [FractionText α]

/-- The stored text. -/
def canonical (a : Artifact α) : String :=
  a.toJson.canonical

/-- The digest of the stored text. -/
def digest (a : Artifact α) : String :=
  Blake3.hexDigest a.canonical

/-- The artifact of a tree. -/
def ofRaw? (r : Raw) : Option (Artifact α) :=
  match r.fields? ["format_version", "vocabulary", "trees"] 0 with
  | some [some version, some vocabulary, some trees] =>
    match version.word? 0x100000000, Vocabulary.ofRaw? vocabulary,
        trees.items? CompiledTree.ofRaw? with
    | some version, some vocabulary, some trees =>
      some ⟨UInt32.ofNat version, vocabulary, trees⟩
    | _, _, _ => none
  | _ => none

/-- The artifact of a text. -/
def parse? (text : String) : Option (Artifact α) :=
  (Raw.parse? text).bind ofRaw?

end Artifact

end LeadScoring
