import LeadScoring.Proofs.Json.Doubles

/-!
# Numbers of JSON values

A number of a JSON value is an integer of 64 bits or a finite double.  Both are spelled as number
literals that are read as the same number: an integer by its digits, a double with a point or an
exponent, so that it is not taken for an integer.

Main results:

- Definition `Json.Number.IsProper`: the numbers that JSON values hold.
- Theorem `Json.Number.readsBack_of_isProper`: they are read back from their spelling.
- Theorem `Json.Number.isProper_of_ofSpelling?`: whatever is read is one of them.
-/

namespace LeadScoring.Json

namespace Number

/-- An integer of a signed or an unsigned word of 64 bits, or a finite double. -/
def IsProper : Number Float → Prop
  | int i => fitsWord i = true
  | fraction x => Binary64.isFinite x = true

/-! ## Integers -/

/-- The spelling of an integer splits into its sign and the digits of its magnitude. -/
theorem splitMinus_spellInt (i : ℤ) :
    splitMinus (spellInt i) = (decide (i < 0), Nat.toDigits 10 i.natAbs) := by
  unfold spellInt
  by_cases hi : i < 0
  · rw [if_pos hi, decide_eq_true hi]
    rfl
  · rw [if_neg hi, decide_eq_false hi]
    exact splitMinus_of_isDigit fun c hc => isDigit_of_mem_toDigits (List.mem_of_head? hc)

theorem isNumber_spellInt (i : ℤ) : isNumber (spellInt i) = true := by
  have hnumber := isNumber_toDigits i.natAbs
  have hunsigned : splitMinus (Nat.toDigits 10 i.natAbs) = (false, Nat.toDigits 10 i.natAbs) :=
    splitMinus_of_isDigit fun c hc => isDigit_of_mem_toDigits (List.mem_of_head? hc)
  rw [isNumber, hunsigned] at hnumber
  rw [isNumber, splitMinus_spellInt]
  exact hnumber

/-- Integers of 64 bits read back from their digits and sign. -/
theorem intOfSpelling?_spellInt {i : ℤ} (h : fitsWord i = true) :
    intOfSpelling? (spellInt i) = some i := by
  have hdigits : (Nat.toDigits 10 i.natAbs).all Char.isDigit = true :=
    List.all_eq_true.2 fun _ => isDigit_of_mem_toDigits
  have hvalue : (if decide (i < 0) = true then -(i.natAbs : ℤ) else i.natAbs) = i := by
    by_cases hi : i < 0
    · rw [if_pos (decide_eq_true hi)]
      omega
    · rw [if_neg (by simpa using hi)]
      omega
  have hzero : (decide (i < 0) && i.natAbs == 0) = false := by
    rw [Bool.and_eq_false_iff, decide_eq_false_iff_not, beq_eq_false_iff_ne]
    omega
  rw [intOfSpelling?, splitMinus_spellInt]
  dsimp only
  rw [if_pos hdigits, natOfDigits_toDigits, hvalue, hzero, h]
  rfl

/-! ## Doubles -/

/-- A spelling with a character that is neither a digit nor a minus sign is no integer. -/
theorem intOfSpelling?_eq_none {spelling : List Char} {c : Char} (hc : c ∈ spelling)
    (hdigit : c.isDigit = false) (hminus : c ≠ '-') : intOfSpelling? spelling = none := by
  have hmem : c ∈ (splitMinus spelling).2 := by
    unfold splitMinus
    split
    · rcases List.mem_cons.1 hc with h | h
      · exact absurd h hminus
      · exact h
    · exact hc
  have hall : (splitMinus spelling).2.all Char.isDigit = false := by
    rw [List.all_eq_false]
    exact ⟨c, hmem, by simp [hdigit]⟩
  rw [intOfSpelling?]
  dsimp only
  rw [hall]
  rfl

/-- The digits of a whole number keep a fraction, and the others have one. -/
theorem point_mem_positionalText (digits : List Char) (exponent : ℤ) :
    '.' ∈ Layout.positionalText true digits exponent := by
  unfold Layout.positionalText
  extract_lets places
  rw [if_pos rfl]
  split_ifs <;> simp

/-- Scientific notation shows its exponent. -/
theorem exponent_mem_scientificText (digits : List Char) (leading : ℤ) :
    'e' ∈ Layout.scientificText digits leading := by
  unfold Layout.scientificText
  simp

/-- The text of a double has a point or an exponent. -/
theorem exists_mem_magnitudeText (x : Float) :
    ∃ c ∈ magnitudeText x, c.isDigit = false ∧ c ≠ '-' := by
  unfold magnitudeText
  split_ifs
  · exact ⟨'.', by decide, by decide, by decide⟩
  · unfold Layout.decimalText
    dsimp only
    split_ifs
    · exact ⟨'.', point_mem_positionalText _ _, by decide, by decide⟩
    · exact ⟨'e', exponent_mem_scientificText _ _, by decide, by decide⟩

/-- No finite double is spelled as an integer. -/
theorem intOfSpelling?_spell_fraction {x : Float} (hfinite : Binary64.isFinite x = true) :
    intOfSpelling? (FractionText.spell x) = none := by
  obtain ⟨c, hc, hdigit, hminus⟩ := exists_mem_magnitudeText x
  apply intOfSpelling?_eq_none _ hdigit hminus
  rw [spell_of_isFinite hfinite]
  split_ifs
  · exact List.mem_cons_of_mem _ hc
  · exact hc

/-! ## Numbers -/

/-- Proper numbers read back from their spelling, as the same kind of number. -/
theorem readsBack_of_isProper {n : Number Float} (h : n.IsProper) : n.ReadsBack := by
  cases n with
  | int i =>
    refine ⟨isNumber_spellInt i, ?_⟩
    rw [ofSpelling?, spell, intOfSpelling?_spellInt h]
  | fraction x =>
    have hback : Json.ReadsBack x := readsBack_of_isFinite h
    refine ⟨hback.1, ?_⟩
    rw [ofSpelling?, spell, intOfSpelling?_spell_fraction h, hback.2]
    rfl

/-- A literal that is read as an integer fits a word. -/
theorem fitsWord_of_intOfSpelling? {spelling : List Char} {i : ℤ}
    (h : intOfSpelling? spelling = some i) : fitsWord i = true := by
  unfold intOfSpelling? at h
  dsimp only at h
  generalize (if (splitMinus spelling).1 = true then _ else _) = n at h
  split_ifs at h with _ hrefused
  cases h
  rw [Bool.or_eq_true, not_or] at hrefused
  simpa using hrefused.2

/-- Numbers that are read are proper. -/
theorem isProper_of_ofSpelling? {spelling : List Char} {n : Number Float}
    (h : ofSpelling? spelling = some n) : n.IsProper := by
  unfold ofSpelling? at h
  split at h
  · rename_i hint
    cases h
    exact fitsWord_of_intOfSpelling? hint
  · obtain ⟨x, hx, rfl⟩ := Option.map_eq_some_iff.1 h
    obtain ⟨numeral, -, hnumeral⟩ := Option.bind_eq_some_iff.1 hx
    exact isFinite_of_isRead ⟨_, numeral, hnumeral⟩

end Number

end LeadScoring.Json
