import LeadScoring.Proofs.Vocabulary.Derivation
import Mathlib.Data.List.Induction
import Mathlib.Data.List.Nodup

/-!
# What encoding writes

Every field writes at most one input, fields write one after the other, and what is written last
stays.  So the value of an input is the last one that a field has written under its name, and zero if
none has.

Main results:

- Theorem `Vocabulary.indexOf?_eq_some_iff`: positions are those of the list of names.
- Theorem `Vocabulary.get?_set`: a value is found under the name it was set for.
- Definition `Vocabulary.lastWritten` and theorem `Vocabulary.get?_encode`: the value of an input.
- Theorems `Vocabulary.get?_encode_of_entry`, `Vocabulary.get?_encode_of_forall_ne`: the value of an
  input that no more than one field writes.
- Theorem `Vocabulary.forall_mem_encode`: what holds of zero, one and all finite numbers holds of
  every value of a lead.
-/

namespace LeadScoring.Vocabulary

/-! ## Positions of names -/

section Positions

variable {v : Vocabulary} {name other : String}

theorem isSome_name? {i : Nat} (h : i < v.size) : ∃ name, v.name? i = some name :=
  ⟨v.names.get ⟨i, h⟩, List.getElem?_eq_getElem h⟩

/-- Names are distinct, so the name at a position stands nowhere else. -/
theorem indexOf?_of_name? {i : Nat} (h : v.name? i = some name) : v.indexOf? name = some i := by
  obtain ⟨hi, rfl⟩ := List.getElem?_eq_some_iff.1 h
  rw [indexOf?, List.idxOf?_eq_some_iff]
  refine ⟨hi, rfl, ?_⟩
  intro j hj heq
  have hij : j = i := (List.Nodup.getElem_inj_iff v.nodup).1 heq
  omega

theorem indexOf?_eq_none (h : name ∉ v.names) : v.indexOf? name = none :=
  List.idxOf?_eq_none_iff.2 h

/-- The position of a name is the one at which it stands. -/
theorem indexOf?_eq_some_iff {i : Nat} : v.indexOf? name = some i ↔ v.names[i]? = some name := by
  refine ⟨fun h => ?_, indexOf?_of_name?⟩
  obtain ⟨hi, hname, -⟩ := List.idxOf?_eq_some_iff.1 h
  exact List.getElem?_eq_some_iff.2 ⟨hi, hname⟩

theorem lt_size_of_indexOf? {i : Nat} (h : v.indexOf? name = some i) : i < v.size :=
  (List.getElem?_eq_some_iff.1 (indexOf?_eq_some_iff.1 h)).1

/-- The vocabulary contains the names that have a position. -/
theorem contains_eq_isSome_indexOf? (v : Vocabulary) (name : String) :
    v.contains name = (v.indexOf? name).isSome := by
  rw [Bool.eq_iff_iff, contains, List.contains_iff_mem, Option.isSome_iff_exists,
    List.mem_iff_getElem?]
  exact exists_congr fun i => indexOf?_eq_some_iff.symm

variable {α : Type} {values : Array α}

/-- A value is found under the name it was set for, and every other one stays. -/
theorem get?_set (hsize : values.size = v.size) (name : String) (x : α) (h : other ∈ v.names) :
    v.get? (v.set values name x) other = if name = other then some x else v.get? values other := by
  obtain ⟨i, hother⟩ := List.mem_iff_getElem?.1 h
  have hi : i < values.size := hsize ▸ (List.getElem?_eq_some_iff.1 hother).1
  have hindex : v.indexOf? other = some i := indexOf?_of_name? hother
  by_cases hname : name ∈ v.names
  · obtain ⟨j, hj⟩ := List.mem_iff_getElem?.1 hname
    have hsame : j = i ↔ name = other := by
      constructor
      · rintro rfl
        exact Option.some.inj (hj.symm.trans hother)
      · rintro rfl
        exact (List.getElem?_inj (List.getElem?_eq_some_iff.1 hj).1 v.nodup).1 (hj.trans hother.symm)
    simp only [set, indexOf?_of_name? hj, get?, hindex, Option.bind_some,
      Array.getElem?_setIfInBounds, hsame]
    by_cases heq : name = other
    · obtain rfl := hsame.2 heq
      rw [if_pos heq, if_pos heq, if_pos hi]
    · rw [if_neg heq, if_neg heq]
  · have hne : name ≠ other := fun heq => hname (heq ▸ h)
    simp only [set, indexOf?_eq_none hname, if_neg hne]

/-- Setting a value adds no other one. -/
theorem mem_set {name : String} {values : Array α} {x y : α} (h : y ∈ v.set values name x) :
    y = x ∨ y ∈ values := by
  unfold set at h
  split at h
  · exact (Array.mem_or_eq_of_mem_setIfInBounds h).symm
  · exact Or.inr h

end Positions

/-! ## Encoding -/

variable {α : Type} [Scalar α] {v : Vocabulary} {lead : Lead} {name : String}

/-- The value that was written last under a name, zero if there is none. -/
def lastWritten (entries : List (String × α)) (name : String) : α :=
  (((entries.filter fun entry => entry.1 == name).getLast?).map Prod.snd).getD 0

theorem lastWritten_concat (entries : List (String × α)) (entry : String × α) (name : String) :
    lastWritten (entries ++ [entry]) name =
      if entry.1 = name then entry.2 else lastWritten entries name := by
  by_cases h : entry.1 = name <;> simp [lastWritten, List.filter_append, h]

/-- Encoding sets what the fields write, one after the other. -/
theorem encode_eq_foldl (v : Vocabulary) (lead : Lead) :
    (v.encode lead : Array α) = (v.fields.filterMap ( entry? lead)).foldl
      (fun values entry => v.set values entry.1 entry.2) (Array.replicate v.size 0) := by
  rw [encode, List.foldl_filterMap]
  refine List.foldl_ext _ _ _ fun values f _ => ?_
  cases ( entry? lead f : Option (String × α)) <;> rfl

/-- After some values have been set, an input has the last one that was set for it. -/
theorem get?_foldl_set (entries : List (String × α)) (h : name ∈ v.names) :
    (entries.foldl (fun values entry => v.set values entry.1 entry.2)
        (Array.replicate v.size 0)).size = v.size ∧
      v.get? (entries.foldl (fun values entry => v.set values entry.1 entry.2)
        (Array.replicate v.size 0)) name = some (lastWritten entries name) := by
  induction entries using List.reverseRecOn with
  | nil =>
    obtain ⟨i, hname⟩ := List.mem_iff_getElem?.1 h
    have hi : i < v.size := (List.getElem?_eq_some_iff.1 hname).1
    simp [get?, indexOf?_of_name? hname, lastWritten, hi]
  | append_singleton entries entry ih =>
    obtain ⟨hsize, hvalue⟩ := ih
    rw [List.foldl_append, List.foldl_cons, List.foldl_nil, size_set,
      get?_set hsize entry.1 entry.2 h, lastWritten_concat, hvalue]
    refine ⟨hsize, ?_⟩
    split_ifs <;> rfl

/-- The value of an input is the last one that a field writes under its name. -/
theorem get?_encode (lead : Lead) (h : name ∈ v.names) :
    v.get? (v.encode lead : Array α) name =
      some (lastWritten (v.fields.filterMap ( entry? lead)) name) := by
  rw [encode_eq_foldl]
  exact (get?_foldl_set _ h).2

/-- What is written under one name in one way only is what is written last. -/
theorem lastWritten_of_mem {entries : List (String × α)} {x : α} (h : (name, x) ∈ entries)
    (hall : ∀ y, (name, y) ∈ entries → y = x) : lastWritten entries name = x := by
  induction entries using List.reverseRecOn with
  | nil => cases h
  | append_singleton entries entry ih =>
    rw [lastWritten_concat]
    obtain ⟨other, y⟩ := entry
    by_cases hother : other = name
    · subst hother
      rw [if_pos rfl]
      exact hall y (by simp)
    · rw [if_neg hother]
      refine ih ?_ fun z hz => hall z (List.mem_append_left _ hz)
      simpa [Ne.symm hother] using h

/-- A name that nothing is written under has a zero. -/
theorem lastWritten_of_notMem {entries : List (String × α)} (h : ∀ x, (name, x) ∉ entries) :
    lastWritten entries name = 0 := by
  have hnone : (entries.filter fun entry => entry.1 == name) = [] := by
    rw [List.filter_eq_nil_iff]
    rintro ⟨other, x⟩ hentry hother
    obtain rfl : other = name := by simpa using hother
    exact h x hentry
  simp [lastWritten, hnone]

/-- An input that no more than one field writes has the value that this field writes. -/
theorem get?_encode_of_entry {f : Field} {x : α} (hf : f ∈ v.fields) (hname : name ∈ v.names)
    (hentry : entry? lead f = some (name, x))
    (honly : ∀ g ∈ v.fields, ∀ y : α, entry? lead g = some (name, y) → g = f) :
    v.get? (v.encode lead : Array α) name = some x := by
  rw [get?_encode lead hname]
  congr 1
  refine lastWritten_of_mem (List.mem_filterMap.2 ⟨f, hf, hentry⟩) fun y hy => ?_
  obtain ⟨g, hg, hwritten⟩ := List.mem_filterMap.1 hy
  rw [honly g hg y hwritten, hentry] at hwritten
  cases hwritten
  rfl

/-- An input that no field writes is zero. -/
theorem get?_encode_of_forall_ne (hname : name ∈ v.names)
    (h : ∀ g ∈ v.fields, ∀ y : α, entry? lead g ≠ some (name, y)) :
    v.get? (v.encode lead : Array α) name = some 0 := by
  rw [get?_encode lead hname]
  congr 1
  refine lastWritten_of_notMem fun x hx => ?_
  obtain ⟨g, hg, hwritten⟩ := List.mem_filterMap.1 hx
  exact h g hg x hwritten

/-! ## Finite values -/

/-- The number that is read from a lead is finite. -/
theorem isFinite_number (lead : Lead) (keys : List String) :
    Binary64.isFinite (lead.number keys) = true := by
  have hzero : Binary64.isFinite 0.0 = true := by decide
  unfold Lead.number
  split
  · unfold Value.toNumber
    split
    · split_ifs with hfinite
      · exact hfinite
      · exact hzero
    · exact hzero
  · exact hzero

section Forall

variable {P : α → Prop} (hzero : P 0) (hone : P 1)
  (hnumber : ∀ x : Float, Binary64.isFinite x = true → P (Scalar.ofFloat x))

include hzero hone hnumber

/-- What holds of zero, one and all finite numbers holds of what a field writes. -/
theorem forall_entry? {f : Field} {x : α} (h : entry? lead f = some (name, x)) : P x := by
  unfold entry? at h
  split at h
  · cases h
    exact hnumber _ (isFinite_number lead f.lookupKeys)
  · cases h
    split_ifs
    · exact hone
    · exact hzero
  · obtain ⟨_, -, hentry⟩ := Option.map_eq_some_iff.1 h
    cases hentry
    exact hone

/-- What holds of zero, one and all finite numbers holds of every value of an encoded lead. -/
theorem forall_mem_encode (v : Vocabulary) (lead : Lead) :
    ∀ x ∈ (v.encode lead : Array α), P x := by
  rw [encode_eq_foldl]
  refine List.foldlRecOn (motive := fun values => ∀ x ∈ values, P x) _ _ ?_ ?_
  · intro x hx
    rw [(Array.mem_replicate.1 hx).2]
    exact hzero
  · rintro values hvalues ⟨name, y⟩ hentry x hx
    obtain ⟨f, -, hentry⟩ := List.mem_filterMap.1 hentry
    rcases mem_set hx with rfl | hx
    · exact forall_entry? hzero hone hnumber hentry
    · exact hvalues x hx

end Forall

end LeadScoring.Vocabulary
