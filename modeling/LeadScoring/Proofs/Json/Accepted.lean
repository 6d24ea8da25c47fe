import LeadScoring.Proofs.Json.NormalForm

/-!
# Values that were read

A value that was read from a text has proper numbers and members in order at every level, and is
nested no deeper than the reader allows.  Such a value is written and read again unchanged, without
being sorted first.

Main results:

- Definition `Json.Accepted`: what the reader guarantees.
- Theorem `Json.accepted_of_ofRaw?`: the reader guarantees it.
- Theorem `Json.Accepted.ofRaw?_toRaw`: such values are read back where they are not too deep.
-/

namespace LeadScoring.Json

/-- What holds of a value that was read with a limit on nesting. -/
structure Accepted (limit : ℕ) (v : Json Float) : Prop where
  proper : ∀ n, number n ∈ v.parts → n.IsProper
  ordered : ∀ members, object members ∈ v.parts → InKeyOrder members
  depth_le : v.depth ≤ limit

namespace Accepted

variable {limit : ℕ} {v : Json Float}

theorem wellFormed (h : Accepted limit v) : v.WellFormed :=
  ⟨h.proper, fun members hmembers => (h.ordered members hmembers).nodup⟩

theorem sorted_eq (h : Accepted limit v) : v.sorted = v :=
  sorted_of_inKeyOrder h.ordered

/-- A value that was read is read back under a limit exactly if it is not nested deeper. -/
theorem ofRaw?_toRaw (h : Accepted limit v) (n : ℕ) :
    ofRaw? n v.toRaw = if v.depth ≤ n then some v else none := by
  rw [Json.ofRaw?_toRaw h.wellFormed.readsBack, h.sorted_eq]

theorem number {n : Number Float} (h : n.IsProper) : Accepted limit (.number n) := by
  refine ⟨?_, ?_, Nat.zero_le _⟩
  · intro k hk
    cases List.mem_singleton.1 hk
    exact h
  · intro members hmembers
    cases List.mem_singleton.1 hmembers

theorem array {items : List (Json Float)} (h : ∀ item ∈ items, Accepted limit item) :
    Accepted (limit + 1) (.array items) := by
  refine ⟨?_, ?_, depth_array_le_iff.2 fun item hitem => (h item hitem).depth_le⟩
  · intro n hn
    rcases mem_parts_array.1 hn with hn | ⟨item, hitem, hn⟩
    · cases hn
    · exact (h item hitem).proper n hn
  · intro members hmembers
    rcases mem_parts_array.1 hmembers with hmembers | ⟨item, hitem, hmembers⟩
    · cases hmembers
    · exact (h item hitem).ordered members hmembers

theorem object {members : List (String × Json Float)} (h : ∀ m ∈ members, Accepted limit m.2) :
    Accepted (limit + 1) (.object (sortMembers members)) := by
  have hsorted : ∀ m ∈ sortMembers members, Accepted limit m.2 :=
    fun m hm => h m (mem_of_mem_sortMembers hm)
  refine ⟨?_, ?_, depth_object_le_iff.2 fun m hm => (hsorted m hm).depth_le⟩
  · intro n hn
    rcases mem_parts_object.1 hn with hn | ⟨m, hm, hn⟩
    · cases hn
    · exact (hsorted m hm).proper n hn
  · intro ms hms
    rcases mem_parts_object.1 hms with hms | ⟨m, hm, hms⟩
    · cases hms
      exact inKeyOrder_sortMembers members
    · exact (hsorted m hm).ordered ms hms

end Accepted

/-- A value without numbers and members. -/
theorem accepted_of_parts {v : Json Float} {limit : ℕ} (hparts : v.parts = [v])
    (hnumber : ∀ n, v ≠ .number n) (hobject : ∀ members, v ≠ .object members)
    (hdepth : v.depth = 0) : Accepted limit v := by
  refine ⟨?_, ?_, by omega⟩
  · intro n hn
    rw [hparts, List.mem_singleton] at hn
    exact absurd hn.symm (hnumber n)
  · intro members hmembers
    rw [hparts, List.mem_singleton] at hmembers
    exact absurd hmembers.symm (hobject members)

mutual

/-- Whatever is read keeps what the reader guarantees. -/
theorem accepted_of_ofRaw? {limit : ℕ} {v : Json Float} :
    ∀ {r : Raw}, ofRaw? limit r = some v → Accepted limit v
  | .null, h => by
    cases h
    exact accepted_of_parts rfl nofun nofun rfl
  | .bool b, h => by
    cases h
    exact accepted_of_parts rfl nofun nofun rfl
  | .number spelling, h => by
    obtain ⟨n, hn, rfl⟩ := Option.map_eq_some_iff.1 h
    exact Accepted.number (Number.isProper_of_ofSpelling? hn)
  | .string spelling, h => by
    obtain ⟨s, -, rfl⟩ := Option.map_eq_some_iff.1 h
    exact accepted_of_parts rfl nofun nofun rfl
  | .array items, h => by
    cases limit with
    | zero => cases h
    | succ limit =>
      obtain ⟨xs, hxs, rfl⟩ := Option.map_eq_some_iff.1 h
      exact Accepted.array (accepted_of_itemsOfRaw? hxs)
  | .object members, h => by
    cases limit with
    | zero => cases h
    | succ limit =>
      obtain ⟨ms, hms, rfl⟩ := Option.map_eq_some_iff.1 h
      exact Accepted.object (accepted_of_membersOfRaw? hms)

/-- Items that are read are accepted below their array. -/
theorem accepted_of_itemsOfRaw? {limit : ℕ} {xs : List (Json Float)} :
    ∀ {items : List Raw}, itemsOfRaw? limit items = some xs → ∀ x ∈ xs, Accepted limit x
  | [], h => by
    cases h
    simp
  | item :: items, h => by
    rw [itemsOfRaw?] at h
    split at h
    · rename_i hitem hitems
      cases h
      exact List.forall_mem_cons.2 ⟨accepted_of_ofRaw? hitem, accepted_of_itemsOfRaw? hitems⟩
    · cases h

/-- Members that are read are accepted below their object. -/
theorem accepted_of_membersOfRaw? {limit : ℕ} {ms : List (String × Json Float)} :
    ∀ {members : List (List Char × Raw)}, membersOfRaw? limit members = some ms →
      ∀ m ∈ ms, Accepted limit m.2
  | [], h => by
    cases h
    simp
  | (key, value) :: members, h => by
    rw [membersOfRaw?] at h
    split at h
    · rename_i hvalue hmembers
      cases h
      exact List.forall_mem_cons.2 ⟨accepted_of_ofRaw? hvalue, accepted_of_membersOfRaw? hmembers⟩
    · cases h

end

/-- A text is read as a value that is accepted at the limit on nesting. -/
theorem accepted_of_parse? {text : String} {v : Json Float} (h : parse? text = some v) :
    Accepted nestingLimit v := by
  obtain ⟨r, -, hr⟩ := Option.bind_eq_some_iff.1 h
  exact accepted_of_ofRaw? hr

end LeadScoring.Json
