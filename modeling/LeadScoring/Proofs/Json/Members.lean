import LeadScoring.Json.Value
import Mathlib.Data.List.Induction
import Mathlib.Data.List.Perm.Basic
import Mathlib.Data.List.Perm.Lattice
import Mathlib.Data.String.Basic

/-!
# Members in the order of their keys

Sorting puts the members of an object into the order of their keys and keeps the last one of each
key.  Members whose keys differ are only moved, so how they stood before does not matter, and
members that stand in order stay where they are.

Main results:

- Definition `Json.InKeyOrder`: members in strictly increasing order of their keys.
- Theorem `Json.inKeyOrder_sortMembers`: sorted members are in order.
- Theorem `Json.sortMembers_perm`: sorting members with different keys moves them.
- Theorem `Json.sortMembers_eq_of_perm`: members in another order are sorted alike.
- Theorem `Json.sortMembers_of_inKeyOrder`: members in order stay.
-/

namespace LeadScoring.Json

variable {β γ : Type}

/-- Members in strictly increasing order of their keys. -/
def InKeyOrder (members : List (String × β)) : Prop :=
  members.Pairwise fun m n => m.1 < n.1

/-- Members in order have different keys. -/
theorem InKeyOrder.nodup {members : List (String × β)} (h : InKeyOrder members) :
    (members.map Prod.fst).Nodup :=
  List.pairwise_map.2 (List.Pairwise.imp (fun hlt => hlt.ne) h)

theorem InKeyOrder.map {members : List (String × β)} (h : InKeyOrder members) (f : β → γ) :
    InKeyOrder (members.map fun m => (m.1, f m.2)) :=
  List.pairwise_map.2 h

/-! ## One member -/

/-- Putting a member into an object brings in no other one. -/
theorem mem_of_mem_putMember {key : String} {value : β} {members : List (String × β)}
    {m : String × β} (h : m ∈ putMember key value members) : m = (key, value) ∨ m ∈ members := by
  induction members with
  | nil => exact Or.inl (List.mem_singleton.1 h)
  | cons head members ih =>
    obtain ⟨k, v⟩ := head
    unfold putMember at h
    split_ifs at h
    · rcases List.mem_cons.1 h with h | h
      · exact Or.inl h
      · exact Or.inr (List.mem_cons_of_mem _ h)
    · rcases List.mem_cons.1 h with h | h
      · exact Or.inl h
      · exact Or.inr h
    · rcases List.mem_cons.1 h with h | h
      · exact Or.inr (h ▸ List.mem_cons_self)
      · rcases ih h with h | h
        · exact Or.inl h
        · exact Or.inr (List.mem_cons_of_mem _ h)

/-- A member put at its place keeps the others in order. -/
theorem InKeyOrder.putMember {members : List (String × β)} (h : InKeyOrder members) (key : String)
    (value : β) : InKeyOrder (putMember key value members) := by
  induction members with
  | nil => exact List.pairwise_singleton _ _
  | cons head members ih =>
    obtain ⟨k, v⟩ := head
    obtain ⟨hhead, htail⟩ := List.pairwise_cons.1 h
    unfold Json.putMember
    split_ifs with hsame hlt
    · subst hsame
      exact List.pairwise_cons.2 ⟨hhead, htail⟩
    · refine List.pairwise_cons.2 ⟨?_, h⟩
      intro m hm
      rcases List.mem_cons.1 hm with rfl | hm
      · exact hlt
      · exact hlt.trans (hhead m hm)
    · refine List.pairwise_cons.2 ⟨?_, ih htail⟩
      intro m hm
      rcases mem_of_mem_putMember hm with rfl | hm
      · exact lt_of_le_of_ne (not_lt.1 hlt) (Ne.symm hsame)
      · exact hhead m hm

/-- A member with a new key is added. -/
theorem putMember_perm {key : String} {members : List (String × β)}
    (h : key ∉ members.map Prod.fst) (value : β) :
    (putMember key value members).Perm ((key, value) :: members) := by
  induction members with
  | nil => exact List.Perm.refl _
  | cons head members ih =>
    obtain ⟨k, v⟩ := head
    rw [List.map_cons, List.mem_cons, not_or] at h
    unfold putMember
    rw [if_neg h.1]
    split_ifs
    · exact List.Perm.refl _
    · exact ((ih h.2).cons (k, v)).trans (List.Perm.swap _ _ _)

/-! ## All members -/

/-- A last member is put into the sorted ones before it. -/
theorem sortMembers_append_singleton (members : List (String × β)) (m : String × β) :
    sortMembers (members ++ [m]) = putMember m.1 m.2 (sortMembers members) := by
  rw [sortMembers, List.foldl_append]
  rfl

theorem inKeyOrder_sortMembers (members : List (String × β)) :
    InKeyOrder (sortMembers members) := by
  induction members using List.reverseRecOn with
  | nil => exact List.Pairwise.nil
  | append_singleton members m ih =>
    rw [sortMembers_append_singleton]
    exact ih.putMember m.1 m.2

theorem mem_of_mem_sortMembers {members : List (String × β)} {m : String × β}
    (h : m ∈ sortMembers members) : m ∈ members := by
  induction members using List.reverseRecOn with
  | nil => exact h
  | append_singleton members n ih =>
    rw [sortMembers_append_singleton] at h
    rcases mem_of_mem_putMember h with rfl | h
    · exact List.mem_append_right _ List.mem_cons_self
    · exact List.mem_append_left _ (ih h)

/-- Members with different keys are only moved. -/
theorem sortMembers_perm {members : List (String × β)} (h : (members.map Prod.fst).Nodup) :
    (sortMembers members).Perm members := by
  induction members using List.reverseRecOn with
  | nil => exact List.Perm.refl _
  | append_singleton members m ih =>
    rw [List.map_append, List.nodup_append] at h
    have hperm := ih h.1
    have hnew : m.1 ∉ (sortMembers members).map Prod.fst := by
      rw [(hperm.map Prod.fst).mem_iff]
      intro hmem
      exact h.2.2 m.1 hmem m.1 List.mem_cons_self rfl
    rw [sortMembers_append_singleton]
    exact (putMember_perm hnew m.2).trans
      ((hperm.cons m).trans (List.perm_append_singleton m _).symm)

/-- There is one order of the keys. -/
theorem InKeyOrder.eq_of_perm {first second : List (String × β)} (hfirst : InKeyOrder first)
    (hsecond : InKeyOrder second) (hperm : first.Perm second) : first = second :=
  hperm.eq_of_pairwise (fun _ _ _ _ hlt hgt => absurd hlt hgt.asymm) hfirst hsecond

/-- Members with distinct keys are sorted alike in any order. -/
theorem sortMembers_eq_of_perm {first second : List (String × β)}
    (hkeys : (first.map Prod.fst).Nodup) (hperm : first.Perm second) :
    sortMembers first = sortMembers second := by
  have hkeys' : (second.map Prod.fst).Nodup := (hperm.map Prod.fst).nodup_iff.1 hkeys
  apply InKeyOrder.eq_of_perm (inKeyOrder_sortMembers first) (inKeyOrder_sortMembers second)
  exact ((sortMembers_perm hkeys).trans hperm).trans (sortMembers_perm hkeys').symm

/-- Members that are in order are sorted already. -/
theorem sortMembers_of_inKeyOrder {members : List (String × β)} (h : InKeyOrder members) :
    sortMembers members = members :=
  (inKeyOrder_sortMembers members).eq_of_perm h (sortMembers_perm h.nodup)

end LeadScoring.Json
