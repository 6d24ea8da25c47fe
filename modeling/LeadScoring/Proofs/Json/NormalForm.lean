import LeadScoring.Proofs.Json.Numbers
import LeadScoring.Proofs.Json.Parts
import LeadScoring.Proofs.Related
import LeadScoring.Proofs.Text.Bytes

/-!
# Canonical texts are a normal form

Two values that differ only in the order of their members have one canonical text, and values with
one canonical text differ in nothing else.  The text is read as the value with its members sorted,
at every level by the bytes of the keys.

Main results:

- Definition `Json.WellFormed`: proper numbers, and no key twice in an object.
- Definition `Json.SameUpToOrder`: equal values, but for the order of the members in objects.
- Theorem `Json.sorted_eq_iff`: values are the same up to order exactly if they are sorted alike.
- Theorem `Json.canonical_normalForm`: canonical texts decide whether values are the same up to
  order, are read back, and are written again unchanged.
-/

namespace LeadScoring.Json

variable {α : Type}

/-! ## Equality up to the order of members -/

/-- Values that are equal but for the order of the members in objects, at any depth. -/
inductive SameUpToOrder : Json α → Json α → Prop
  | null : SameUpToOrder .null .null
  | bool (b : Bool) : SameUpToOrder (.bool b) (.bool b)
  | number (n : Number α) : SameUpToOrder (.number n) (.number n)
  | string (s : String) : SameUpToOrder (.string s) (.string s)
  | array {items others : List (Json α)} (hitems : List.Forall₂ SameUpToOrder items others) :
    SameUpToOrder (.array items) (.array others)
  /-- The members of one object can be moved so that the keys are equal one by one, and the values
  the same one by one. -/
  | object {members moved others : List (String × Json α)} (hmoved : members.Perm moved)
    (hkeys : moved.map Prod.fst = others.map Prod.fst)
    (hvalues : List.Forall₂ SameUpToOrder (moved.map Prod.snd) (others.map Prod.snd)) :
    SameUpToOrder (.object members) (.object others)

/-- No object of a value has a key twice. -/
def DistinctKeys (v : Json α) : Prop :=
  ∀ members, object members ∈ v.parts → (members.map Prod.fst).Nodup

theorem DistinctKeys.of_mem_array {items : List (Json α)} (h : (array items).DistinctKeys)
    {item : Json α} (hitem : item ∈ items) : item.DistinctKeys :=
  fun members hmembers => h members (mem_parts_array.2 (Or.inr ⟨item, hitem, hmembers⟩))

theorem DistinctKeys.of_mem_object {members : List (String × Json α)}
    (h : (object members).DistinctKeys) {m : String × Json α} (hm : m ∈ members) :
    m.2.DistinctKeys :=
  fun ms hms => h ms (mem_parts_object.2 (Or.inr ⟨m, hm, hms⟩))

/-- No key is twice in an object that has been sorted. -/
theorem distinctKeys_sorted (v : Json α) : v.sorted.DistinctKeys :=
  fun _ hmembers => (inKeyOrder_of_mem_parts_sorted hmembers).nodup

theorem map_sorted_eq_of_forall₂ {items others : List (Json α)}
    (h : List.Forall₂ SameUpToOrder items others)
    (hsorted : ∀ x ∈ items, ∀ y, SameUpToOrder x y → x.sorted = y.sorted) :
    items.map sorted = others.map sorted := by
  induction h with
  | nil => rfl
  | cons hxy _ ih =>
    rw [List.forall_mem_cons] at hsorted
    rw [List.map_cons, List.map_cons, hsorted.1 _ hxy, ih hsorted.2]

/-- Members whose keys are equal and whose values are sorted alike. -/
theorem map_member_eq_zip (members : List (String × Json α)) :
    members.map (fun m => (m.1, m.2.sorted)) =
      (members.map Prod.fst).zip ((members.map Prod.snd).map sorted) := by
  rw [List.map_map, List.zip_map']
  rfl

theorem nodup_map_sorted {members : List (String × Json α)}
    (h : (members.map Prod.fst).Nodup) :
    ((members.map fun m => (m.1, m.2.sorted)).map Prod.fst).Nodup := by
  rwa [List.map_map]

/-- Values that are the same up to order are sorted alike. -/
theorem SameUpToOrder.sorted_eq {v w : Json α} (h : SameUpToOrder v w) (hkeys : v.DistinctKeys) :
    v.sorted = w.sorted := by
  induction v using Json.induction generalizing w with
  | null => cases h; rfl
  | bool b => cases h; rfl
  | number n => cases h; rfl
  | string s => cases h; rfl
  | array items ih =>
    cases h with
    | array hitems =>
      have hsorted := map_sorted_eq_of_forall₂ hitems fun x hx y hxy =>
        ih x hx hxy (hkeys.of_mem_array hx)
      rw [sorted_array, sorted_array, hsorted]
  | object members ih =>
    cases h with
    | @object _ moved others hmoved hsame hvalues =>
      have hsorted : (moved.map Prod.snd).map sorted = (others.map Prod.snd).map sorted := by
        apply map_sorted_eq_of_forall₂ hvalues
        intro x hx y hxy
        obtain ⟨m, hm, rfl⟩ := List.mem_map.1 hx
        have hmem := hmoved.mem_iff.2 hm
        exact ih m hmem hxy (hkeys.of_mem_object hmem)
      have hmembers : moved.map (fun m => (m.1, m.2.sorted)) =
          others.map fun m => (m.1, m.2.sorted) := by
        rw [map_member_eq_zip, map_member_eq_zip, hsame, hsorted]
      have hnodup := nodup_map_sorted (hkeys members (mem_parts_self _))
      rw [sorted_object, sorted_object, ← hmembers]
      exact congrArg Json.object (sortMembers_eq_of_perm hnodup (hmoved.map _))

/-- Items that are sorted alike are the same up to order. -/
theorem forall₂_of_map_sorted_eq {items others : List (Json α)}
    (h : items.map sorted = others.map sorted)
    (hsame : ∀ x ∈ items, ∀ y ∈ others, x.sorted = y.sorted → SameUpToOrder x y) :
    List.Forall₂ SameUpToOrder items others := by
  induction items generalizing others with
  | nil =>
    rw [List.map_nil, eq_comm, List.map_eq_nil_iff] at h
    rw [h]
    exact .nil
  | cons x items ih =>
    cases others with
    | nil => cases h
    | cons y others =>
      obtain ⟨hxy, hrest⟩ := List.cons.inj h
      refine .cons (hsame x List.mem_cons_self y List.mem_cons_self hxy) (ih hrest ?_)
      intro x hx y hy
      exact hsame x (List.mem_cons_of_mem _ hx) y (List.mem_cons_of_mem _ hy)

/-- Members whose sorted forms are in one order can be moved into the order of the others. -/
theorem exists_moved_of_perm {members others : List (String × Json α)}
    (h : (members.map fun m => (m.1, m.2.sorted)).Perm (others.map fun m => (m.1, m.2.sorted))) :
    ∃ moved, members.Perm moved ∧ moved.map (fun m => (m.1, m.2.sorted)) =
      others.map fun m => (m.1, m.2.sorted) := by
  have hself : List.Forall₂ (fun (m : String × Json α) n => (m.1, m.2.sorted) = n) members
      (members.map fun m => (m.1, m.2.sorted)) :=
    List.forall₂_map_right_iff.2 (List.forall₂_same.2 fun _ _ => rfl)
  have hcomp := congrFun (congrFun (List.forall₂_comp_perm_eq_perm_comp_forall₂
    (r := fun (m : String × Json α) (n : String × Json α) => (m.1, m.2.sorted) = n)) members)
    (others.map fun m => (m.1, m.2.sorted))
  obtain ⟨moved, hmoved, hsorted⟩ := hcomp.mp ⟨_, hself, h⟩
  refine ⟨moved, hmoved, ?_⟩
  have heq := map_eq_map_of_forall₂ hsorted fun _ _ hxy => hxy
  rwa [List.map_id'] at heq

/-- Values that are sorted alike are the same up to order. -/
theorem sameUpToOrder_of_sorted_eq {v w : Json α} (h : v.sorted = w.sorted)
    (hv : v.DistinctKeys) (hw : w.DistinctKeys) : SameUpToOrder v w := by
  induction v using Json.induction generalizing w with
  | null =>
    cases w <;> first | exact .null | cases h
  | bool b =>
    cases w <;> first | (cases h; exact .bool b) | cases h
  | number n =>
    cases w <;> first | (cases h; exact .number n) | cases h
  | string s =>
    cases w <;> first | (cases h; exact .string s) | cases h
  | array items ih =>
    cases w with
    | array others =>
      rw [sorted_array, sorted_array, array.injEq] at h
      apply SameUpToOrder.array
      apply forall₂_of_map_sorted_eq h
      intro x hx y hy hxy
      exact ih x hx hxy (hv.of_mem_array hx) (hw.of_mem_array hy)
    | _ => cases h
  | object members ih =>
    cases w with
    | object others =>
      rw [sorted_object, sorted_object, object.injEq] at h
      have hmembers := sortMembers_perm (nodup_map_sorted (hv members (mem_parts_self _)))
      have hothers := sortMembers_perm (nodup_map_sorted (hw others (mem_parts_self _)))
      obtain ⟨moved, hmoved, hsorted⟩ := exists_moved_of_perm (hmembers.symm.trans (h ▸ hothers))
      have hkeys := congrArg (List.map Prod.fst) hsorted
      have hvalues := congrArg (List.map Prod.snd) hsorted
      simp only [List.map_map, Function.comp_def] at hkeys hvalues
      apply SameUpToOrder.object hmoved hkeys
      apply forall₂_of_map_sorted_eq
      · simpa only [List.map_map, Function.comp_def] using hvalues
      · intro x hx y hy hxy
        obtain ⟨m, hm, rfl⟩ := List.mem_map.1 hx
        obtain ⟨n, hn, rfl⟩ := List.mem_map.1 hy
        have hmem := hmoved.mem_iff.2 hm
        exact ih m hmem hxy (hv.of_mem_object hmem) (hw.of_mem_object hn)
    | _ => cases h

/-- Values are the same up to order exactly if they are sorted alike. -/
theorem sorted_eq_iff {v w : Json α} (hv : v.DistinctKeys) (hw : w.DistinctKeys) :
    v.sorted = w.sorted ↔ SameUpToOrder v w :=
  ⟨fun h => sameUpToOrder_of_sorted_eq h hv hw, fun h => h.sorted_eq hv⟩

/-! ## Canonical texts -/

/-- The values of JSON: numbers are 64-bit integers or finite doubles, and no object has a key
twice. -/
structure WellFormed (v : Json Float) : Prop where
  proper : ∀ n, number n ∈ v.parts → n.IsProper
  distinct : v.DistinctKeys

/-- Whether a value is well formed, apart from what is inside. -/
def isSound : Json Float → Bool
  | number (.int i) => Number.fitsWord i
  | number (.fraction x) => Binary64.isFinite x
  | object members => decide (members.map Prod.fst).Nodup
  | _ => true

/-- A value is well formed if each of its parts is sound. -/
theorem wellFormed_iff {v : Json Float} : v.WellFormed ↔ ∀ part ∈ v.parts, part.isSound = true := by
  constructor
  · intro h part hpart
    cases part with
    | number n =>
      have hproper := h.proper n hpart
      cases n <;> exact hproper
    | object members => exact decide_eq_true (h.distinct members hpart)
    | _ => rfl
  · intro h
    constructor
    · intro n hn
      have hsound := h _ hn
      cases n <;> exact hsound
    · intro members hmembers
      exact of_decide_eq_true (h _ hmembers)

instance (v : Json Float) : Decidable v.WellFormed :=
  decidable_of_iff _ wellFormed_iff.symm

/-- The numbers of a well-formed value read back. -/
theorem WellFormed.readsBack {v : Json Float} (h : v.WellFormed) :
    ∀ n, number n ∈ v.parts → n.ReadsBack :=
  fun n hn => Number.readsBack_of_isProper (h.proper n hn)

/-- Canonical texts are a normal form.  Two values have the same canonical text exactly if they are
the same up to the order of members.  The canonical text of a value is read as a value that is the
same up to order, whose members stand, as in the text, at every level in strictly increasing order
of the bytes of their keys, and that is written as this text again. -/
theorem canonical_normalForm {v w : Json Float} (hv : v.WellFormed) (hw : w.WellFormed)
    (hvdepth : v.depth ≤ nestingLimit) (hwdepth : w.depth ≤ nestingLimit) :
    (v.canonical = w.canonical ↔ SameUpToOrder v w) ∧
      ∃ r : Json Float, parse? v.canonical = some r ∧ SameUpToOrder r v ∧
        r.compact = v.canonical ∧
        (∀ members, object members ∈ r.parts →
          members.Pairwise fun m n => Text.bytes m.1 < Text.bytes n.1) ∧
        r.canonical = v.canonical := by
  have hread := parse?_canonical_eq hv.readsBack hvdepth
  have hread' := parse?_canonical_eq hw.readsBack hwdepth
  constructor
  · rw [← sorted_eq_iff hv.distinct hw.distinct]
    constructor
    · intro htext
      rw [htext, hread'] at hread
      exact (Option.some.inj hread).symm
    · intro hsorted
      rw [canonical, canonical, hsorted]
  · refine ⟨v.sorted, hread, ?_, rfl, ?_, ?_⟩
    · exact sameUpToOrder_of_sorted_eq (sorted_sorted v) (distinctKeys_sorted v) hv.distinct
    · intro members hmembers
      exact (inKeyOrder_of_mem_parts_sorted hmembers).imp Text.bytes_lt_bytes
    · rw [canonical, canonical, sorted_sorted]

/-- Numbers of both kinds, characters that are escaped or take several bytes, and objects inside
arrays inside objects. -/
def mixed : Json Float :=
  .object [("é", .array [.number (.int 1), .number (.fraction 1.0), .number (.fraction (-0.0)),
      .object [("\n\"", .null), ("Ω", .string "\\\u0001\r")]]),
    ("z", .number (.int (-0x8000000000000000))), ("", .object [])]

/-- The same value with the members of both objects in another order. -/
def turned : Json Float :=
  .object [("", .object []), ("é", .array [.number (.int 1), .number (.fraction 1.0),
      .number (.fraction (-0.0)), .object [("Ω", .string "\\\u0001\r"), ("\n\"", .null)]]),
    ("z", .number (.int (-0x8000000000000000)))]

/-- Two objects with the same members in two orders. -/
theorem canonical_normalForm_mixed_turned :
    mixed.WellFormed ∧ turned.WellFormed ∧ mixed.depth ≤ nestingLimit ∧
      turned.depth ≤ nestingLimit ∧ mixed.canonical = turned.canonical ∧
      SameUpToOrder mixed turned ∧
      ∃ r : Json Float, parse? mixed.canonical = some r ∧ SameUpToOrder r mixed ∧
        r.compact = mixed.canonical ∧
        (∀ members, object members ∈ r.parts →
          members.Pairwise fun m n => Text.bytes m.1 < Text.bytes n.1) ∧
        r.canonical = mixed.canonical := by
  have hmixed : mixed.WellFormed := by decide +kernel
  have hturned : turned.WellFormed := by decide +kernel
  have hdepth : mixed.depth ≤ nestingLimit := by decide +kernel
  have hdepth' : turned.depth ≤ nestingLimit := by decide +kernel
  have htext : mixed.canonical = turned.canonical := by decide +kernel
  have hnormal := canonical_normalForm hmixed hturned hdepth hdepth'
  exact ⟨hmixed, hturned, hdepth, hdepth', htext, hnormal.1.1 htext, hnormal.2⟩

end LeadScoring.Json
