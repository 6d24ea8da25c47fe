import LeadScoring.Proofs.Artifact.RoundTrip
import LeadScoring.Proofs.Json.Doubles

/-!
# Canonical texts are fixed points

Storing an artifact and reading it again changes nothing, and a text that has been read can only be
stored in one way, however it was laid out before.  The numbers of an artifact that was read come
from numerals, and the reader of numerals keeps only finite doubles, so they read back too.

Main results:

- Theorem `Artifact.isRead_of_parse?`: the numbers of an artifact that was read come from numerals.
- Theorem `Artifact.stored_roundTrip`: the stored text of an artifact reads back as the artifact.
-/

namespace LeadScoring

open Json (Raw FractionText)

variable {α : Type} [FractionText α]

/-! ## Numbers that have been read -/

/-- A fractional number that a text is read as has been read. -/
theorem Json.Raw.isRead_of_fraction? {r : Raw} {x : α} (h : r.fraction? = some x) :
    Json.IsRead x := by
  cases r with
  | number spelling =>
    obtain ⟨n, -, hx⟩ := Option.bind_eq_some_iff.1 h
    exact ⟨_, n, hx⟩
  | _ => cases h

namespace CompiledNode

/-- The number of a node that is read has been read. -/
theorem isRead_of_ofTagged? {tag : String} {r : Raw} {n : CompiledNode α}
    (h : ofTagged? tag r = some n) : Json.IsRead n.fraction := by
  unfold ofTagged? at h
  split_ifs at h
  · obtain ⟨fields, -, hsplit⟩ := Option.bind_eq_some_iff.1 h
    unfold splitOfFields? at hsplit
    split at hsplit
    · split at hsplit
      · rename_i hthreshold _ _
        cases hsplit
        exact Raw.isRead_of_fraction? hthreshold
      · cases hsplit
    · cases hsplit
  · obtain ⟨fields, -, hleaf⟩ := Option.bind_eq_some_iff.1 h
    unfold leafOfFields? at hleaf
    split at hleaf
    · obtain ⟨probability, hprobability, rfl⟩ := Option.map_eq_some_iff.1 hleaf
      exact Raw.isRead_of_fraction? hprobability
    · cases hleaf

/-- The number of a node that was read. -/
theorem isRead_of_ofRaw? {r : Raw} {n : CompiledNode α} (h : CompiledNode.ofRaw? r = some n) :
    Json.IsRead n.fraction := by
  unfold CompiledNode.ofRaw? at h
  split at h
  · cases h
  · split at h
    · obtain ⟨tag, -, hnode⟩ := Option.bind_eq_some_iff.1 h
      exact isRead_of_ofTagged? hnode
    · split at h
      · obtain ⟨tag, -, hnode⟩ := Option.bind_eq_some_iff.1 h
        exact isRead_of_ofTagged? hnode
      · cases h

end CompiledNode

/-- What holds of each item that is read holds of all items of an array. -/
theorem Json.Raw.forall_of_items? {β : Type} {P : β → Prop} {read : Raw → Option β} {r : Raw}
    {xs : List β} (h : r.items? read = some xs) (hread : ∀ item x, read item = some x → P x) :
    ∀ x ∈ xs, P x := by
  cases r with
  | array items =>
    have hitems := Outcome.mapM_eq_some_iff.1 h
    have hlength := hitems.length_eq
    intro x hx
    obtain ⟨i, hi, rfl⟩ := List.getElem_of_mem hx
    exact hread _ _ (hitems.get (by omega) hi)
  | _ => cases h

/-- The numbers of a tree that was read. -/
theorem CompiledTree.isRead_of_ofRaw? {r : Raw} {t : CompiledTree α}
    (h : CompiledTree.ofRaw? r = some t) : ∀ n ∈ t.nodes.toList, Json.IsRead n.fraction := by
  unfold CompiledTree.ofRaw? at h
  split at h
  · obtain ⟨nodes, hnodes, rfl⟩ := Option.map_eq_some_iff.1 h
    exact Raw.forall_of_items? hnodes fun _ _ => CompiledNode.isRead_of_ofRaw?
  · cases h

namespace Artifact

/-- The numbers of an artifact that was read. -/
theorem isRead_of_parse? {text : String} {a : Artifact α} (h : parse? text = some a) :
    ∀ x ∈ a.fractions, Json.IsRead x := by
  obtain ⟨r, -, hraw⟩ := Option.bind_eq_some_iff.1 h
  unfold ofRaw? at hraw
  split at hraw
  · split at hraw
    · rename_i htrees
      cases hraw
      intro x hx
      obtain ⟨t, ht, hx⟩ := List.mem_flatMap.1 hx
      obtain ⟨n, hn, rfl⟩ := List.mem_map.1 hx
      exact Raw.forall_of_items? htrees (fun _ _ => CompiledTree.isRead_of_ofRaw?) t ht n hn
    · cases hraw
  · cases hraw

/-- An artifact of finite numbers is read back from its stored text, and has the digest of what is
read.  An artifact that was read from any text is stored as a text that reads back as it. -/
theorem stored_roundTrip :
    (∀ a : Artifact Float, (∀ x ∈ a.fractions, Binary64.isFinite x = true) →
      ∃ b, parse? a.canonical = some b ∧ b = a ∧ b.digest = a.digest) ∧
      ∀ (text : String) (a : Artifact Float), parse? text = some a →
        ∃ b, parse? a.canonical = some b ∧ b = a ∧ b.canonical = a.canonical := by
  have hback : ∀ a : Artifact Float, (∀ x ∈ a.fractions, Binary64.isFinite x = true) →
      parse? a.canonical = some a := by
    intro a hfinite
    exact parse?_canonical fun x hx => Json.readsBack_of_isFinite (hfinite x hx)
  constructor
  · intro a hfinite
    exact ⟨a, hback a hfinite, rfl, rfl⟩
  · intro text a hparse
    have hfinite : ∀ x ∈ a.fractions, Binary64.isFinite x = true :=
      fun x hx => Json.isFinite_of_isRead (isRead_of_parse? hparse x hx)
    exact ⟨a, hback a hfinite, rfl, rfl⟩

/-- An artifact that no scorer accepts: names that are escaped, an alias, a negative zero, the
smallest double, a child that is missing and a table without nodes. -/
def unusable : Artifact Float where
  formatVersion := 7
  vocabulary := .ofNames ["Page \"Views\"", "City:\n"]
    [⟨"City", .categorical, ["city", "Ort"]⟩, ⟨"Page Views", .numeric, []⟩]
  trees := [⟨#[.split "none" (-0.0) 0 9, .leaf 5e-324]⟩, ⟨#[]⟩]

/-- A text with blanks, keys out of order, an escape that is not needed, a name that is repeated and
a zero of many digits. -/
def looseText : String :=
  "\x7b \"trees\": [\x7b\"nodes\": " ++
    "[\x7b\"probability\": -0.00e1, \"kind\": \"leaf\"\x7d]\x7d],\n" ++
    "  \"vocabulary\": \x7b\"names\": [\"a\\u0062\", \"ab\"], \"fields\": []\x7d,\n" ++
    "  \"format_version\": 7 \x7d"

/-- An artifact that no scorer accepts, and a text that is not canonical, both make the round trip.
-/
theorem stored_roundTrip_unusable_looseText :
    (∀ x ∈ unusable.fractions, Binary64.isFinite x = true) ∧
      (∃ b, parse? unusable.canonical = some b ∧ b = unusable ∧ b.digest = unusable.digest) ∧
      ∃ a : Artifact Float, parse? looseText = some a ∧
        ∃ b, parse? a.canonical = some b ∧ b = a ∧ b.canonical = a.canonical := by
  have hfinite : ∀ x ∈ unusable.fractions, Binary64.isFinite x = true := by decide +kernel
  have hread : (parse? looseText : Option (Artifact Float)).isSome = true := by decide +kernel
  rcases Option.isSome_iff_exists.1 hread with ⟨a, ha⟩
  exact ⟨hfinite, stored_roundTrip.1 unusable hfinite, a, ha, stored_roundTrip.2 looseText a ha⟩

end Artifact

end LeadScoring
