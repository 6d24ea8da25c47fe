import Mathlib.Data.List.Forall2

/-!
# Related lists

Trees and their compiled forms, tables and their answers, rows of two tables: these are lists that
are related member by member.  Three facts about such lists are used throughout.

Main results:

- Theorem `map_eq_map_of_forall₂`: what is made of related members makes equal lists.
- Theorem `forall₂_congr_left`: one of two related lists may stand for the other.
- Theorem `exists_forall₂_iff`: related lists are found member by member.
-/

namespace LeadScoring

variable {β γ δ : Type}

/-- Lists that are related element by element have the same values where related elements do. -/
theorem map_eq_map_of_forall₂ {R : β → γ → Prop} {f : β → δ} {g : γ → δ} {xs : List β} {ys : List γ}
    (h : List.Forall₂ R xs ys) (hR : ∀ x y, R x y → f x = g y) : xs.map f = ys.map g := by
  induction h with
  | nil => rfl
  | cons hxy _ ih => rw [List.map_cons, List.map_cons, hR _ _ hxy, ih]

/-- A relation to the members of a list carries over to a list that is related member by member. -/
theorem forall₂_congr_left {R : β → γ → Prop} {P : γ → δ → Prop} {Q : β → δ → Prop} {xs : List β}
    {ys : List γ} {zs : List δ} (h : List.Forall₂ R xs ys)
    (hR : ∀ x y z, R x y → (P y z ↔ Q x z)) : List.Forall₂ P ys zs ↔ List.Forall₂ Q xs zs := by
  induction h generalizing zs with
  | nil => rw [List.forall₂_nil_left_iff, List.forall₂_nil_left_iff]
  | cons hxy _ ih =>
    rw [List.forall₂_cons_left_iff, List.forall₂_cons_left_iff]
    simp only [hR _ _ _ hxy, ih]

/-- A list has related members exactly if each member has one. -/
theorem exists_forall₂_iff {R : β → γ → Prop} {xs : List β} :
    (∃ ys, List.Forall₂ R xs ys) ↔ ∀ x ∈ xs, ∃ y, R x y := by
  induction xs with
  | nil => simp
  | cons x xs ih =>
    rw [List.forall_mem_cons, ← ih]
    constructor
    · rintro ⟨_, hy | @⟨_, y, _, ys, hy, hys⟩⟩
      exact ⟨⟨y, hy⟩, ys, hys⟩
    · rintro ⟨⟨y, hy⟩, ys, hys⟩
      exact ⟨y :: ys, .cons hy hys⟩

end LeadScoring
