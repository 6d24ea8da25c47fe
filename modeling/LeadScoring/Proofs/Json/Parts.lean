import LeadScoring.Proofs.Json.Members
import LeadScoring.Proofs.Json.Records

/-!
# Values and their parts

Arrays and objects hold values in turn.  A property of a JSON value at every depth is one of all its
parts, and a proof about all values is an induction over the parts of arrays and objects.  Written
without blanks and read again, a value comes back with its members sorted if it is not nested too
deep, and is refused otherwise.

Main results:

- Theorem `Json.induction`: induction over values.
- Definitions `Json.parts` and `Json.depth`: a value with everything inside it, and its levels.
- Theorem `Json.inKeyOrder_of_mem_parts_sorted`: sorting puts the members at every level in order.
- Theorem `Json.ofRaw?_toRaw`: what a written value is read as.
-/

namespace LeadScoring.Json

variable {α : Type}

/-! ## Induction -/

mutual

/-- What holds of an array or object whenever it holds of what is inside holds of every value. -/
@[elab_as_elim]
theorem induction {P : Json α → Prop} (null : P .null) (bool : ∀ b, P (.bool b))
    (number : ∀ n, P (.number n)) (string : ∀ s, P (.string s))
    (array : ∀ items, (∀ item ∈ items, P item) → P (.array items))
    (object : ∀ members, (∀ m ∈ members, P m.2) → P (.object members)) : ∀ value, P value
  | .null => null
  | .bool b => bool b
  | .number n => number n
  | .string s => string s
  | .array items => array items (itemsInduction null bool number string array object items)
  | .object members =>
    object members (membersInduction null bool number string array object members)

/-- The induction on values for the items of an array. -/
theorem itemsInduction {P : Json α → Prop} (null : P .null) (bool : ∀ b, P (.bool b))
    (number : ∀ n, P (.number n)) (string : ∀ s, P (.string s))
    (array : ∀ items, (∀ item ∈ items, P item) → P (.array items))
    (object : ∀ members, (∀ m ∈ members, P m.2) → P (.object members)) :
    ∀ items : List (Json α), ∀ item ∈ items, P item
  | [] => by simp
  | item :: items =>
    List.forall_mem_cons.2 ⟨induction null bool number string array object item,
      itemsInduction null bool number string array object items⟩

/-- The induction on values for the members of an object. -/
theorem membersInduction {P : Json α → Prop} (null : P .null) (bool : ∀ b, P (.bool b))
    (number : ∀ n, P (.number n)) (string : ∀ s, P (.string s))
    (array : ∀ items, (∀ item ∈ items, P item) → P (.array items))
    (object : ∀ members, (∀ m ∈ members, P m.2) → P (.object members)) :
    ∀ members : List (String × Json α), ∀ m ∈ members, P m.2
  | [] => by simp
  | (_, value) :: members =>
    List.forall_mem_cons.2 ⟨induction null bool number string array object value,
      membersInduction null bool number string array object members⟩

end

/-! ## Parts -/

mutual

/-- A value and everything inside it. -/
def parts : Json α → List (Json α)
  | array items => array items :: itemsParts items
  | object members => object members :: membersParts members
  | value => [value]

/-- The parts of array items. -/
def itemsParts : List (Json α) → List (Json α)
  | [] => []
  | item :: items => parts item ++ itemsParts items

/-- The parts of member values. -/
def membersParts : List (String × Json α) → List (Json α)
  | [] => []
  | (_, value) :: members => parts value ++ membersParts members

end

/-- The parts of an array are itself and those of its items. -/
theorem mem_parts_array {items : List (Json α)} {part : Json α} :
    part ∈ (array items).parts ↔ part = array items ∨ ∃ item ∈ items, part ∈ item.parts := by
  have hitems : ∀ xs : List (Json α), itemsParts xs = xs.flatMap parts := by
    intro xs
    induction xs with
    | nil => rfl
    | cons x xs ih => rw [itemsParts, ih, List.flatMap_cons]
  rw [parts, List.mem_cons, hitems, List.mem_flatMap]

/-- The parts of an object are itself and those of its members. -/
theorem mem_parts_object {members : List (String × Json α)} {part : Json α} :
    part ∈ (object members).parts ↔
      part = object members ∨ ∃ m ∈ members, part ∈ m.2.parts := by
  have hmembers : ∀ ms : List (String × Json α),
      membersParts ms = ms.flatMap fun m => m.2.parts := by
    intro ms
    induction ms with
    | nil => rfl
    | cons m ms ih => rw [membersParts, ih, List.flatMap_cons]
  rw [parts, List.mem_cons, hmembers, List.mem_flatMap]

theorem mem_parts_self (v : Json α) : v ∈ v.parts := by
  cases v <;> simp [parts]

/-! ## Depth -/

mutual

/-- The levels of arrays and objects of a value. -/
def depth : Json α → ℕ
  | array items => itemsDepth items + 1
  | object members => membersDepth members + 1
  | _ => 0

/-- The levels of the deepest array item. -/
def itemsDepth : List (Json α) → ℕ
  | [] => 0
  | item :: items => max (depth item) (itemsDepth items)

/-- The levels of the deepest member value. -/
def membersDepth : List (String × Json α) → ℕ
  | [] => 0
  | (_, value) :: members => max (depth value) (membersDepth members)

end

theorem depth_array_le_iff {items : List (Json α)} {n : ℕ} :
    (array items).depth ≤ n + 1 ↔ ∀ item ∈ items, item.depth ≤ n := by
  have hitems : ∀ xs : List (Json α), itemsDepth xs ≤ n ↔ ∀ x ∈ xs, x.depth ≤ n := by
    intro xs
    induction xs with
    | nil => simp [itemsDepth]
    | cons x xs ih => rw [itemsDepth, max_le_iff, ih, List.forall_mem_cons]
  rw [depth, Nat.add_le_add_iff_right, hitems]

theorem depth_object_le_iff {members : List (String × Json α)} {n : ℕ} :
    (object members).depth ≤ n + 1 ↔ ∀ m ∈ members, m.2.depth ≤ n := by
  have hmembers : ∀ ms : List (String × Json α), membersDepth ms ≤ n ↔ ∀ m ∈ ms, m.2.depth ≤ n := by
    intro ms
    induction ms with
    | nil => simp [membersDepth]
    | cons m ms ih => rw [membersDepth, max_le_iff, ih, List.forall_mem_cons]
  rw [depth, Nat.add_le_add_iff_right, hmembers]

/-! ## Sorting -/

theorem sorted_object (members : List (String × Json α)) :
    (object members).sorted = object (sortMembers (members.map fun m => (m.1, m.2.sorted))) := by
  have hmembers : ∀ ms : List (String × Json α),
      sortedMembers ms = ms.map fun m => (m.1, m.2.sorted) := by
    intro ms
    induction ms with
    | nil => rfl
    | cons m ms ih => rw [sortedMembers, ih, List.map_cons]
  rw [sorted, hmembers]

/-- The members of a sorted object are members of the object with sorted values. -/
theorem exists_of_mem_sorted {members : List (String × Json α)} {m : String × Json α}
    (h : m ∈ sortMembers (members.map fun m => (m.1, m.2.sorted))) :
    ∃ n ∈ members, (n.1, n.2.sorted) = m :=
  List.mem_map.1 (mem_of_mem_sortMembers h)

/-- Sorting brings no new numbers. -/
theorem number_mem_parts_of_sorted {v : Json α} {n : Number α} (h : number n ∈ v.sorted.parts) :
    number n ∈ v.parts := by
  induction v using Json.induction with
  | null => exact h
  | bool b => exact h
  | number k => exact h
  | string s => exact h
  | array items ih =>
    rw [sorted_array, mem_parts_array] at h
    rw [mem_parts_array]
    rcases h with h | ⟨item, hitem, h⟩
    · cases h
    · obtain ⟨item, hmem, rfl⟩ := List.mem_map.1 hitem
      exact Or.inr ⟨item, hmem, ih item hmem h⟩
  | object members ih =>
    rw [sorted_object, mem_parts_object] at h
    rw [mem_parts_object]
    rcases h with h | ⟨m, hm, h⟩
    · cases h
    · obtain ⟨m, hmem, rfl⟩ := exists_of_mem_sorted hm
      exact Or.inr ⟨m, hmem, ih m hmem h⟩

/-- The members at every level of a sorted value are in order. -/
theorem inKeyOrder_of_mem_parts_sorted {v : Json α} {members : List (String × Json α)}
    (h : object members ∈ v.sorted.parts) : InKeyOrder members := by
  induction v using Json.induction with
  | null => cases List.mem_singleton.1 h
  | bool b => cases List.mem_singleton.1 h
  | number k => cases List.mem_singleton.1 h
  | string s => cases List.mem_singleton.1 h
  | array items ih =>
    rw [sorted_array, mem_parts_array] at h
    rcases h with h | ⟨item, hitem, h⟩
    · cases h
    · obtain ⟨item, hmem, rfl⟩ := List.mem_map.1 hitem
      exact ih item hmem h
  | object ms ih =>
    rw [sorted_object, mem_parts_object] at h
    rcases h with h | ⟨m, hm, h⟩
    · cases h
      exact inKeyOrder_sortMembers _
    · obtain ⟨m, hmem, rfl⟩ := exists_of_mem_sorted hm
      exact ih m hmem h

/-- A value whose members are in order at every level stays as it is. -/
theorem sorted_of_inKeyOrder {v : Json α}
    (h : ∀ members, object members ∈ v.parts → InKeyOrder members) : v.sorted = v := by
  induction v using Json.induction with
  | null => rfl
  | bool b => rfl
  | number k => rfl
  | string s => rfl
  | array items ih =>
    have hitems : items.map sorted = items.map id := by
      apply List.map_congr_left
      intro item hitem
      exact ih item hitem fun members hm => h members (mem_parts_array.2 (Or.inr ⟨item, hitem, hm⟩))
    rw [sorted_array, hitems, List.map_id]
  | object members ih =>
    have hmembers : members.map (fun m => (m.1, m.2.sorted)) = members.map id := by
      apply List.map_congr_left
      intro m hm
      rw [ih m hm fun ms hms => h ms (mem_parts_object.2 (Or.inr ⟨m, hm, hms⟩))]
      rfl
    rw [sorted_object, hmembers, List.map_id,
      sortMembers_of_inKeyOrder (h members (mem_parts_self _))]

theorem sorted_sorted (v : Json α) : v.sorted.sorted = v.sorted :=
  sorted_of_inKeyOrder fun _ => inKeyOrder_of_mem_parts_sorted

/-- Sorting does not nest deeper. -/
theorem depth_sorted_le {v : Json α} {n : ℕ} (h : v.depth ≤ n) : v.sorted.depth ≤ n := by
  induction v using Json.induction generalizing n with
  | null => exact h
  | bool b => exact h
  | number k => exact h
  | string s => exact h
  | array items ih =>
    cases n with
    | zero => cases h
    | succ n =>
      rw [depth_array_le_iff] at h
      rw [sorted_array, depth_array_le_iff]
      intro item hitem
      obtain ⟨item, hmem, rfl⟩ := List.mem_map.1 hitem
      exact ih item hmem (h item hmem)
  | object members ih =>
    cases n with
    | zero => cases h
    | succ n =>
      rw [depth_object_le_iff] at h
      rw [sorted_object, depth_object_le_iff]
      intro m hm
      obtain ⟨m, hmem, rfl⟩ := exists_of_mem_sorted hm
      exact ih m hmem (h m hmem)

/-! ## Writing and reading -/

section Reading

variable [FractionText α]

/-- A value is written as valid literals. -/
theorem wellSpelled_toRaw {v : Json α} (h : ∀ n, number n ∈ v.parts → n.ReadsBack) :
    v.toRaw.WellSpelled := by
  induction v using Json.induction with
  | null => exact trivial
  | bool b => exact trivial
  | number n => exact (h n (mem_parts_self _)).1
  | string s => exact Raw.wellSpelled_ofString s
  | array items ih =>
    rw [toRaw_array]
    apply Raw.wellSpelled_array
    intro r hr
    obtain ⟨item, hitem, rfl⟩ := List.mem_map.1 hr
    exact ih item hitem fun n hn => h n (mem_parts_array.2 (Or.inr ⟨item, hitem, hn⟩))
  | object members ih =>
    rw [toRaw_object]
    apply Raw.wellSpelled_record
    intro m hm
    obtain ⟨member, hmember, rfl⟩ := List.mem_map.1 hm
    exact ih member hmember fun n hn => h n (mem_parts_object.2 (Or.inr ⟨member, hmember, hn⟩))

/-- Items are read back, sorted, if none of them is too deep. -/
theorem itemsOfRaw?_map_toRaw {limit : ℕ} {items : List (Json α)}
    (h : ∀ item ∈ items, ofRaw? limit item.toRaw =
      if item.depth ≤ limit then some item.sorted else none) :
    itemsOfRaw? limit (items.map toRaw) =
      if ∀ item ∈ items, item.depth ≤ limit then some (items.map sorted) else none := by
  induction items with
  | nil => rw [if_pos (by simp)]; rfl
  | cons item items ih =>
    rw [List.forall_mem_cons] at h
    rw [List.map_cons, itemsOfRaw?, h.1, ih h.2]
    have hcons : (∀ x ∈ item :: items, x.depth ≤ limit) ↔
        item.depth ≤ limit ∧ ∀ x ∈ items, x.depth ≤ limit := List.forall_mem_cons
    by_cases hitem : item.depth ≤ limit
    · by_cases hitems : ∀ x ∈ items, x.depth ≤ limit
      · rw [if_pos hitem, if_pos hitems, if_pos (hcons.2 ⟨hitem, hitems⟩)]
        rfl
      · rw [if_neg hitems, if_neg fun hall => hitems (hcons.1 hall).2]
        split <;> simp_all
    · rw [if_neg hitem, if_neg fun hall => hitem (hcons.1 hall).1]

/-- Members are read back, sorted, if none of them is too deep. -/
theorem membersOfRaw?_map_toRaw {limit : ℕ} {members : List (String × Json α)}
    (h : ∀ m ∈ members, ofRaw? limit m.2.toRaw =
      if m.2.depth ≤ limit then some m.2.sorted else none) :
    membersOfRaw? limit (members.map fun m => (spellString m.1, m.2.toRaw)) =
      if ∀ m ∈ members, m.2.depth ≤ limit then
        some (members.map fun m => (m.1, m.2.sorted)) else none := by
  induction members with
  | nil => rw [if_pos (by simp)]; rfl
  | cons m members ih =>
    rw [List.forall_mem_cons] at h
    rw [List.map_cons, membersOfRaw?, h.1, ih h.2, stringOf?_spellString]
    have hcons : (∀ x ∈ m :: members, x.2.depth ≤ limit) ↔
        m.2.depth ≤ limit ∧ ∀ x ∈ members, x.2.depth ≤ limit := List.forall_mem_cons
    by_cases hm : m.2.depth ≤ limit
    · by_cases hmembers : ∀ x ∈ members, x.2.depth ≤ limit
      · rw [if_pos hm, if_pos hmembers, if_pos (hcons.2 ⟨hm, hmembers⟩)]
        rfl
      · rw [if_neg hmembers, if_neg fun hall => hmembers (hcons.1 hall).2]
        split <;> simp_all
    · rw [if_neg hm, if_neg fun hall => hm (hcons.1 hall).1]

/-- A written value is read as the value with its members sorted, unless it is nested too deep. -/
theorem ofRaw?_toRaw {v : Json α} (h : ∀ n, number n ∈ v.parts → n.ReadsBack) (limit : ℕ) :
    ofRaw? limit v.toRaw = if v.depth ≤ limit then some v.sorted else none := by
  induction v using Json.induction generalizing limit with
  | null => rfl
  | bool b => rfl
  | number n =>
    rw [toRaw, ofRaw?, (h n (mem_parts_self _)).2]
    rfl
  | string s =>
    rw [toRaw, ofRaw?, stringOf?_spellString]
    rfl
  | array items ih =>
    cases limit with
    | zero => rw [toRaw, ofRaw?, if_neg (by simp [depth])]
    | succ limit =>
      have hitems := itemsOfRaw?_map_toRaw fun item hitem =>
        ih item hitem (fun n hn => h n (mem_parts_array.2 (Or.inr ⟨item, hitem, hn⟩))) limit
      rw [toRaw_array, ofRaw?, hitems, sorted_array]
      simp only [depth_array_le_iff]
      split_ifs <;> rfl
  | object members ih =>
    cases limit with
    | zero => rw [toRaw, ofRaw?, if_neg (by simp [depth])]
    | succ limit =>
      have hmembers := membersOfRaw?_map_toRaw fun m hm =>
        ih m hm (fun n hn => h n (mem_parts_object.2 (Or.inr ⟨m, hm, hn⟩))) limit
      rw [toRaw, membersToRaw_eq, ofRaw?, hmembers, sorted_object]
      simp only [depth_object_le_iff]
      split_ifs <;> rfl

/-- The canonical text of a value is read as the value with its members sorted. -/
theorem parse?_canonical_eq {v : Json α} (h : ∀ n, number n ∈ v.parts → n.ReadsBack)
    (hdepth : v.depth ≤ nestingLimit) : parse? v.canonical = some v.sorted := by
  have hsorted : ∀ n, number n ∈ v.sorted.parts → n.ReadsBack :=
    fun n hn => h n (number_mem_parts_of_sorted hn)
  rw [parse?, parse?_canonical (wellSpelled_toRaw hsorted), Option.bind_some,
    ofRaw?_toRaw hsorted, if_pos (depth_sorted_le hdepth), sorted_sorted]

end Reading

end LeadScoring.Json
