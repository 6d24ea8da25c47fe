import LeadScoring.Vocabulary.Basic
import Mathlib.Data.List.Basic
import Mathlib.Data.List.Induction

/-!
# What a lookup reads

Of the members with one key only the last counts, and a field looks up its own keys and no others.
A blank value counts as none.  Leads that hold the same under the keys of a vocabulary are therefore
encoded alike, whatever else they hold and whichever of their values are blank.

Main results:

- Theorem `Json.findMember?_sortMembers`: the last member with a key is the one that is found.
- Definition `Lead.held?` and theorem `Lead.lookup?_eq_findSome?`: a lookup takes the first value
  that is held.
- Definition `Lead.HoldAlike` and theorem `Lead.HoldAlike.lookup?_eq`: a lookup reads its keys only.
- Definition `Lead.without` and theorem `Lead.holdAlike_without`: entries that may be left out.
- Theorem `Vocabulary.encode_eq_of_holdAlike`: encoding reads the keys of the fields only.
-/

namespace LeadScoring

/-! ## Members -/

namespace Json

variable {β : Type} {key : String}

/-- A member that is put into an object is found under its key and hides no other key. -/
theorem findMember?_putMember (k : String) (value : β) (members : List (String × β)) :
    findMember? key (putMember k value members) =
      if key = k then some value else findMember? key members := by
  induction members with
  | nil => rfl
  | cons head members ih =>
    obtain ⟨k', value'⟩ := head
    unfold putMember
    by_cases hsame : k = k'
    · subst hsame
      by_cases hkey : key = k <;> simp [findMember?, hkey]
    · rw [if_neg hsame]
      split_ifs with hlt hkey hkey
      · rw [findMember?, if_pos hkey]
      · rw [findMember?, if_neg hkey]
      · rw [findMember?, ih, if_pos hkey, if_neg (hkey ▸ hsame)]
      · rw [findMember?, findMember?, ih, if_neg hkey]

/-- Of several members with a key the last one is found. -/
theorem findMember?_sortMembers (members : List (String × β)) :
    findMember? key (sortMembers members) =
      ((members.filter fun m => m.1 == key).getLast?).map Prod.snd := by
  rw [sortMembers]
  induction members using List.reverseRecOn with
  | nil => rfl
  | append_singleton members m ih =>
    rw [List.foldl_append, List.foldl_cons, List.foldl_nil, findMember?_putMember, ih,
      List.filter_append]
    by_cases hkey : m.1 = key
    · simp [hkey]
    · simp [hkey, Ne.symm hkey]

end Json

/-! ## Leads -/

namespace Lead

/-- The value that a lead holds under a key; a blank one counts as none. -/
def held? (lead : Lead) (key : String) : Option Value :=
  (lead.get? key).filter fun v => !v.isBlank

/-- A lead holds nothing under a key exactly if a value that stands there is blank. -/
theorem held?_eq_none_iff {lead : Lead} {key : String} :
    lead.held? key = none ↔ ∀ v, lead.get? key = some v → v.isBlank = true := by
  simp [held?, Option.filter_eq_none_iff]

theorem held?_of_get? {lead : Lead} {key : String} {v : Value} (h : lead.get? key = some v)
    (hv : v.isBlank = false) : lead.held? key = some v := by
  simp [held?, h, hv]

/-- A lookup takes the first value that the lead holds. -/
theorem lookup?_eq_findSome? (lead : Lead) (keys : List String) :
    lead.lookup? keys = keys.findSome? lead.held? := by
  unfold lookup?
  congr 1
  funext key
  unfold held?
  cases lead.get? key with
  | none => rfl
  | some v => cases hv : v.isBlank <;> simp [Option.filter, hv]

/-- Keys under which a lead holds nothing do not hide the value of a later key. -/
theorem lookup?_append_cons {lead : Lead} {before after : List String} {key : String} {v : Value}
    (hbefore : ∀ k ∈ before, lead.held? k = none) (hv : lead.held? key = some v) :
    lead.lookup? (before ++ key :: after) = some v := by
  have hnone : before.findSome? lead.held? = none := List.findSome?_eq_none_iff.2 hbefore
  rw [lookup?_eq_findSome?, List.findSome?_append, hnone, List.findSome?_cons, hv]
  rfl

/-- Two leads have the same value under every key of a kind. -/
def AgreeOn (visible : String → Prop) (first second : Lead) : Prop :=
  ∀ key, visible key → first.get? key = second.get? key

/-- Two leads hold the same under every key of a kind, blank values aside. -/
def HoldAlike (visible : String → Prop) (first second : Lead) : Prop :=
  ∀ key, visible key → first.held? key = second.held? key

variable {visible : String → Prop} {first second : Lead} {keys : List String}

theorem AgreeOn.holdAlike (h : AgreeOn visible first second) : HoldAlike visible first second := by
  intro key hkey
  rw [held?, held?, h key hkey]

/-- A lookup reads its keys only. -/
theorem HoldAlike.lookup?_eq (h : HoldAlike visible first second)
    (hkeys : ∀ key ∈ keys, visible key) : first.lookup? keys = second.lookup? keys := by
  rw [lookup?_eq_findSome?, lookup?_eq_findSome?]
  induction keys with
  | nil => rfl
  | cons key keys ih =>
    rw [List.forall_mem_cons] at hkeys
    rw [List.findSome?_cons, List.findSome?_cons, h key hkeys.1, ih hkeys.2]

/-- Leads that hold alike under some keys have the same text there. -/
theorem HoldAlike.text?_eq (h : HoldAlike visible first second)
    (hkeys : ∀ key ∈ keys, visible key) : first.text? keys = second.text? keys := by
  rw [text?, text?, h.lookup?_eq hkeys]

/-- Leads that hold alike under some keys have the same number there. -/
theorem HoldAlike.number_eq (h : HoldAlike visible first second)
    (hkeys : ∀ key ∈ keys, visible key) : first.number keys = second.number keys := by
  rw [number, number, h.lookup?_eq hkeys]

/-- Leads that hold alike under some keys have the same flag there. -/
theorem HoldAlike.flag_eq (h : HoldAlike visible first second)
    (hkeys : ∀ key ∈ keys, visible key) : first.flag keys = second.flag keys := by
  rw [flag, flag, h.lookup?_eq hkeys]

/-! ## Leaving entries out -/

/-- A lead without the entries under some keys. -/
def without (lead : Lead) (removed : String → Bool) : Lead :=
  ⟨lead.entries.filter fun entry => !removed entry.1⟩

theorem get?_without (lead : Lead) (removed : String → Bool) (key : String) :
    (lead.without removed).get? key = if removed key then none else lead.get? key := by
  unfold get? without
  induction lead.entries with
  | nil => simp [Json.findMember?]
  | cons entry entries ih =>
    obtain ⟨k, v⟩ := entry
    by_cases hkey : key = k
    · subst hkey
      by_cases hremoved : removed key <;> simp_all [Json.findMember?]
    · by_cases hremoved : removed k <;> simp_all [Json.findMember?]

/-- An entry may be left out if its key is of no interest or its value blank. -/
theorem holdAlike_without {lead : Lead} {removed : String → Bool}
    (h : ∀ key, removed key = true → ¬ visible key ∨ lead.held? key = none) :
    HoldAlike visible (lead.without removed) lead := by
  intro key hkey
  rw [held?, get?_without]
  by_cases hremoved : removed key
  · rcases h key hremoved with hhidden | hnone
    · exact absurd hkey hhidden
    · rw [if_pos hremoved, hnone, Option.filter_none]
  · rw [if_neg hremoved, held?]

end Lead

/-! ## Readers of leads -/

variable {visible : String → Prop} {first second : Lead}

namespace Vocabulary

variable {α : Type} [Scalar α]

/-- What a field writes depends on its keys only. -/
theorem written_eq_of_holdAlike (h : Lead.HoldAlike visible first second) {f : Field}
    (hkeys : ∀ key ∈ f.lookupKeys, visible key) :
    ( entry? first f : Option (String × α)) = entry? second f := by
  unfold entry?
  rw [h.number_eq hkeys, h.flag_eq hkeys, h.text?_eq hkeys]

/-- Leads that hold the same under the keys of all fields are encoded alike. -/
theorem encode_eq_of_holdAlike (h : Lead.HoldAlike visible first second) {v : Vocabulary}
    (hkeys : ∀ f ∈ v.fields, ∀ key ∈ f.lookupKeys, visible key) :
    (v.encode first : Array α) = v.encode second := by
  rw [encode, encode]
  refine List.foldl_ext _ _ _ fun values f hf => ?_
  rw [written_eq_of_holdAlike h (hkeys f hf)]

end Vocabulary

end LeadScoring
