import Mathlib.Data.List.Forall2

/-!
# Sequences of checks

Building and checking functions run their steps in `Except` and stop at the first failure.  These
lemmas take a run apart into its steps.

Main results:

- Theorem `Outcome.bind_eq_ok_iff`: a sequence succeeds if both of its steps do.
- Theorem `Outcome.bind_eq_error_iff`: a sequence fails as the first of its steps to fail.
- Theorem `Outcome.guard_eq_ok_iff`: a check that throws has been passed.
- Theorem `Outcome.mapM_eq_some_iff`: a list is read if all of its members are.
- Theorem `Outcome.exists_of_map_toOption`: a run of which something is known has succeeded.
-/

namespace LeadScoring.Outcome

variable {ε β γ : Type}

/-- A sequence succeeds exactly if its first step does and the rest does on its value. -/
theorem bind_eq_ok_iff {x : Except ε β} {f : β → Except ε γ} {c : γ} :
    (x >>= f) = .ok c ↔ ∃ b, x = .ok b ∧ f b = .ok c := by
  cases x <;> simp [bind, Except.bind]

/-- A sequence fails as its first step does, or as the rest does on its value. -/
theorem bind_eq_error_iff {x : Except ε β} {f : β → Except ε γ} {e : ε} :
    (x >>= f) = .error e ↔ x = .error e ∨ ∃ b, x = .ok b ∧ f b = .error e := by
  cases x <;> simp [bind, Except.bind]

/-- A composition avoids an error exactly if both of its steps do. -/
theorem bind_ne_error_iff {x : Except ε β} {f : β → Except ε γ} {e : ε} :
    (x >>= f) ≠ .error e ↔ x ≠ .error e ∧ ∀ b, x = .ok b → f b ≠ .error e := by
  rw [ne_eq, bind_eq_error_iff, not_or, not_exists]
  simp only [not_and]

/-- A sequence that stops at a failed check succeeds exactly if the check is passed. -/
theorem guard_eq_ok_iff {p : Prop} [Decidable p] {e : ε} {f : β → Except ε γ}
    {x : Except ε γ} {c : γ} :
    (if p then throw e >>= f else x) = .ok c ↔ ¬ p ∧ x = .ok c := by
  by_cases hp : p
  · simp [hp, throw, throwThe, MonadExceptOf.throw, bind, Except.bind]
  · simp [hp]

/-- A sequence that stops at a failed check fails otherwise unless the check or the rest fails so. -/
theorem guard_ne_error_iff {p : Prop} [Decidable p] {e d : ε} {f : β → Except ε γ}
    {x : Except ε γ} :
    (if p then throw e >>= f else x) ≠ .error d ↔ (p → e ≠ d) ∧ (¬ p → x ≠ .error d) := by
  by_cases hp : p
  · simp [hp, throw, throwThe, MonadExceptOf.throw, bind, Except.bind]
  · simp [hp]

theorem pure_eq_ok_iff {b c : β} : (pure b : Except ε β) = .ok c ↔ b = c := by
  simp [pure, Except.pure]

theorem map_eq_ok_iff {x : Except ε β} {f : β → γ} {c : γ} :
    x.map f = .ok c ↔ ∃ b, x = .ok b ∧ f b = c := by
  cases x <;> simp [Except.map]

/-- A run of which something is known has succeeded. -/
theorem exists_of_map_toOption {x : Except ε β} {f : β → γ} {c : γ}
    (h : x.toOption.map f = some c) : ∃ b, x = .ok b ∧ f b = c := by
  cases x with
  | error => cases h
  | ok b => exact ⟨b, rfl, Option.some.inj h⟩

/-- Reading all members of a list succeeds exactly if each is read. -/
theorem mapM_eq_some_iff {read : β → Option γ} {xs : List β} {ys : List γ} :
    xs.mapM read = some ys ↔ List.Forall₂ (fun x y => read x = some y) xs ys := by
  induction xs generalizing ys with
  | nil =>
    rw [List.mapM_nil, List.forall₂_nil_left_iff]
    simp [pure, eq_comm]
  | cons x xs ih =>
    rw [List.mapM_cons, List.forall₂_cons_left_iff]
    simp only [Option.bind_eq_bind, Option.bind_eq_some_iff, ih]
    constructor
    · rintro ⟨y, hy, ys, hys, heq⟩
      cases heq
      exact ⟨y, ys, hy, hys, rfl⟩
    · rintro ⟨y, ys, hy, hys, rfl⟩
      exact ⟨y, hy, ys, hys, rfl⟩

end LeadScoring.Outcome
