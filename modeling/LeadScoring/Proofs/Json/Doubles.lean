import LeadScoring.Proofs.Decimal.Window
import LeadScoring.Proofs.Json.Spelling

/-!
# Doubles read back from their spelling

A double is spelled by the digits of its shortest decimal, with a point, with zeros, or with an
exponent.  Each of these layouts is a numeral that denotes the decimal, and the decimal is read as
the double, so every finite double is read back.

Main results:

- Definition `Json.Spells`: a text that is a number literal of given parts.
- Theorem `Json.spells_parts`: whole digits, a fraction and an exponent make a number literal.
- Theorem `Layout.spells_decimalText`: the text of a decimal denotes it.
- Theorem `Json.readsBack_of_isFinite`: finite doubles read back.
- Theorem `Json.isFinite_of_isRead`: doubles that have been read are finite.
-/

namespace LeadScoring

namespace Numeral

/-! ## Parts of a numeral -/

/-- A fraction behind its point, nothing if it has no digits. -/
def pointed (fraction : List Char) : List Char :=
  if fraction = [] then [] else '.' :: fraction

/-- The end of a numeral that is read as an exponent. -/
inductive ExponentText : List Char → ℤ → Prop
  | absent : ExponentText [] 0
  | present {cs : List Char} {e : ℤ} (h : readExponent cs = some e) : ExponentText ('e' :: cs) e

/-- An exponent does not continue a run of digits. -/
theorem ExponentText.head {tail : List Char} {e : ℤ} (h : ExponentText tail e) :
    ∀ c ∈ tail.head?, c.isDigit = false := by
  cases h <;> simp

/-- Neither does a fraction. -/
theorem head_pointed {fraction tail : List Char} {e : ℤ} (h : ExponentText tail e) :
    ∀ c ∈ (pointed fraction ++ tail).head?, c.isDigit = false := by
  unfold pointed
  split_ifs
  · exact h.head
  · simp

/-- A fraction and an exponent are read behind whole digits. -/
theorem readTail_pointed {fraction tail : List Char} {e : ℤ} (whole : List Char)
    (hfraction : ∀ c ∈ fraction, c.isDigit = true) (htail : ExponentText tail e) :
    readTail whole (pointed fraction ++ tail) = some ⟨whole, fraction, e⟩ := by
  unfold pointed readTail
  split_ifs with hempty
  · rw [hempty]
    cases htail with
    | absent => rfl
    | present h => simp [h]
  · simp only [List.cons_append, Json.digitRun_append hfraction htail.head]
    cases htail with
    | absent => rfl
    | present h => simp [h]

/-- The exponent is read back from its sign and digits. -/
theorem readExponent_toDigits (e : ℤ) :
    readExponent ((if e < 0 then '-' else '+') :: Nat.toDigits 10 e.natAbs) = some e := by
  have hdigits : ∀ c ∈ Nat.toDigits 10 e.natAbs, c.isDigit = true :=
    fun _ => Json.isDigit_of_mem_toDigits
  have hsign : takeSign ((if e < 0 then '-' else '+') :: Nat.toDigits 10 e.natAbs) =
      (decide (e < 0), Nat.toDigits 10 e.natAbs) := by
    by_cases he : e < 0
    · rw [if_pos he, decide_eq_true he]
      rfl
    · rw [if_neg he, decide_eq_false he]
      rfl
  have hvalue := Json.natOfDigits_toDigits e.natAbs
  have hnonempty : Nat.toDigits 10 e.natAbs ≠ [] := Nat.toDigits_ne_nil
  rw [readExponent, hsign]
  dsimp only
  rw [Json.digitRun_of_isDigit hdigits]
  generalize Nat.toDigits 10 e.natAbs = digits at hvalue hnonempty ⊢
  cases digits with
  | nil => exact absurd rfl hnonempty
  | cons c digits =>
    dsimp only
    rw [hvalue]
    by_cases he : e < 0
    · rw [if_pos (decide_eq_true he)]
      congr 1
      omega
    · rw [if_neg (by simpa using he)]
      congr 1
      omega

/-! ## Digits -/

theorem natOfDigits_append (xs ys : List Char) :
    natOfDigits (xs ++ ys) = 10 ^ ys.length * natOfDigits xs + natOfDigits ys :=
  (Nat.ofDigitChars_append 0).trans Nat.ofDigitChars_eq_ofDigitChars_zero

theorem natOfDigits_replicate_zero (n : ℕ) : natOfDigits (List.replicate n '0') = 0 :=
  Nat.ofDigitChars_replicate_zero

end Numeral

namespace Json

open Numeral (ExponentText pointed)

/-! ## Number literals -/

/-- A text without a sign that is a number literal of given parts. -/
structure Spells (cs : List Char) (n : Numeral) : Prop where
  unsigned : splitMinus cs = (false, cs)
  isNumber : isNumber cs = true
  read : Numeral.read cs = some n

/-- A fraction and an exponent may follow the whole digits of a number. -/
theorem isFractionTail_pointed {fraction tail : List Char} {e : ℤ}
    (hfraction : ∀ c ∈ fraction, c.isDigit = true) (htail : ExponentText tail e) :
    isFractionTail (pointed fraction ++ tail) = true := by
  have hexponent : isExponentTail tail = true := by
    cases htail with
    | absent => rfl
    | present h => simp [isExponentTail, h]
  unfold pointed isFractionTail
  split_ifs with hempty
  · cases htail with
    | absent => rfl
    | present h => exact hexponent
  · simp only [List.cons_append, digitRun_append hfraction htail.head]
    simp [hempty, hexponent]

/-- Whole digits, a fraction and an exponent make a number literal. -/
theorem spells_parts {whole fraction tail : List Char} {e : ℤ} (hstart : isWhole whole = true)
    (hwhole : ∀ c ∈ whole, c.isDigit = true) (hfraction : ∀ c ∈ fraction, c.isDigit = true)
    (htail : ExponentText tail e) :
    Spells (whole ++ (pointed fraction ++ tail)) ⟨whole, fraction, e⟩ := by
  have hnonempty : whole ≠ [] := by
    rintro rfl
    cases hstart
  have hunsigned : splitMinus (whole ++ (pointed fraction ++ tail)) =
      (false, whole ++ (pointed fraction ++ tail)) := by
    apply splitMinus_of_isDigit
    intro c hc
    rw [List.head?_append_of_ne_nil _ hnonempty] at hc
    exact hwhole c (List.mem_of_head? hc)
  have hrun : Numeral.digitRun (whole ++ (pointed fraction ++ tail)) =
      (whole, pointed fraction ++ tail) :=
    digitRun_append hwhole (Numeral.head_pointed htail)
  refine ⟨hunsigned, ?_, ?_⟩
  · rw [Json.isNumber, hunsigned]
    dsimp only
    rw [hrun]
    dsimp only
    rw [hstart, isFractionTail_pointed hfraction htail]
    rfl
  · rw [Numeral.read, hrun]
    dsimp only
    rw [Numeral.readTail_pointed whole hfraction htail]
    simp [hnonempty]

theorem isWhole_singleton (d : Char) : isWhole [d] = true := by
  unfold isWhole
  split <;> simp_all

end Json

namespace Layout

open Json (Spells spells_parts isWhole_of_head)
open Numeral (ExponentText natOfDigits)

/-! ## The text of a decimal -/

section Texts

variable {digits : List Char} (hdigits : ∀ c ∈ digits, c.isDigit = true) (hnonempty : digits ≠ [])
  (hhead : digits.head? ≠ some '0')

include hdigits hnonempty hhead

/-- Digits behind which zeros and an empty fraction are written. -/
theorem spells_whole (k : ℕ) :
    ∃ n, Spells (digits ++ List.replicate k '0' ++ ['.', '0']) n ∧
      n.toDecimal.value = natOfDigits digits * 10 ^ (k : ℤ) := by
  refine ⟨⟨digits ++ List.replicate k '0', ['0'], 0⟩, ?_, ?_⟩
  · have hzero : ∀ c ∈ ['0'], c.isDigit = true := by simp
    refine spells_parts (isWhole_of_head ?_ ?_) ?_ hzero .absent
    · simp [hnonempty]
    · cases digits with
      | nil => exact absurd rfl hnonempty
      | cons d digits => simpa using hhead
    · intro c hc
      rcases List.mem_append.1 hc with hc | hc
      · exact hdigits c hc
      · rw [List.eq_of_mem_replicate hc]
        decide
  · have hzeros : natOfDigits (digits ++ List.replicate k '0' ++ ['0']) =
        natOfDigits digits * 10 ^ k * 10 := by
      rw [Numeral.natOfDigits_append, Numeral.natOfDigits_append,
        Numeral.natOfDigits_replicate_zero, List.length_replicate]
      change 10 ^ 1 * _ + 0 = _
      ring
    rw [Decimal.value, Numeral.toDecimal]
    dsimp only
    rw [hzeros]
    push_cast
    rw [List.length_singleton, Nat.cast_one, zpow_natCast, zero_sub, zpow_neg_one]
    exact mul_inv_cancel_right₀ (by norm_num) _

/-- Digits around a point. -/
theorem spells_point {places : ℕ} (hplaces : 0 < places) (hlength : places < digits.length) :
    ∃ n, Spells (digits.take (digits.length - places) ++
        '.' :: digits.drop (digits.length - places)) n ∧
      n.toDecimal = ⟨natOfDigits digits, -places⟩ := by
  refine ⟨⟨digits.take (digits.length - places), digits.drop (digits.length - places), 0⟩, ?_, ?_⟩
  · have hfraction : digits.drop (digits.length - places) ≠ [] := by
      rw [Ne, List.drop_eq_nil_iff]
      omega
    have hwhole : Json.isWhole (digits.take (digits.length - places)) = true := by
      apply isWhole_of_head
      · simp [hnonempty]
        omega
      · rw [List.head?_take, if_neg (by omega)]
        exact hhead
    have hrest : ∀ c ∈ digits.drop (digits.length - places), c.isDigit = true :=
      fun c hc => hdigits c (List.mem_of_mem_drop hc)
    have hspells := spells_parts hwhole (fun c hc => hdigits c (List.mem_of_mem_take hc)) hrest
      .absent
    rw [Numeral.pointed, if_neg hfraction, List.append_nil] at hspells
    exact hspells
  · rw [Numeral.toDecimal]
    dsimp only
    rw [List.take_append_drop, List.length_drop]
    congr 1
    omega

omit hnonempty hhead in
/-- Digits behind a zero and a point. -/
theorem spells_small {places : ℕ} (hplaces : 0 < places) (hlength : digits.length ≤ places) :
    ∃ n, Spells ('0' :: '.' :: List.replicate (places - digits.length) '0' ++ digits) n ∧
      n.toDecimal = ⟨natOfDigits digits, -places⟩ := by
  refine ⟨⟨['0'], List.replicate (places - digits.length) '0' ++ digits, 0⟩, ?_, ?_⟩
  · have hfraction : List.replicate (places - digits.length) '0' ++ digits ≠ [] := by
      rw [Ne, ← List.length_eq_zero_iff, List.length_append, List.length_replicate]
      omega
    have hall : ∀ c ∈ List.replicate (places - digits.length) '0' ++ digits, c.isDigit = true := by
      intro c hc
      rcases List.mem_append.1 hc with hc | hc
      · rw [List.eq_of_mem_replicate hc]
        decide
      · exact hdigits c hc
    have hzero : ∀ c ∈ ['0'], c.isDigit = true := by simp
    have hspells := spells_parts rfl hzero hall .absent
    rw [Numeral.pointed, if_neg hfraction, List.append_nil] at hspells
    exact hspells
  · rw [Numeral.toDecimal]
    dsimp only
    rw [← List.append_assoc, Numeral.natOfDigits_append, Numeral.natOfDigits_append,
      Numeral.natOfDigits_replicate_zero, List.length_append, List.length_replicate]
    change (⟨10 ^ _ * (_ * 0 + 0) + _, _⟩ : Decimal) = _
    congr 1
    · simp
    · omega

/-- The digits without an exponent denote the decimal. -/
theorem spells_positionalText (exponent : ℤ) :
    ∃ n, Spells (positionalText true digits exponent) n ∧
      n.toDecimal.value = natOfDigits digits * 10 ^ exponent := by
  unfold positionalText
  by_cases hexponent : 0 ≤ exponent
  · rw [if_pos hexponent, if_pos rfl]
    obtain ⟨k, rfl⟩ := Int.eq_ofNat_of_zero_le hexponent
    exact spells_whole hdigits hnonempty hhead k
  · rw [if_neg hexponent]
    obtain ⟨places, rfl⟩ : ∃ places : ℕ, exponent = -places := ⟨(-exponent).toNat, by omega⟩
    rw [neg_neg, Int.toNat_natCast]
    dsimp only
    split_ifs with hlength
    · rcases spells_point hdigits hnonempty hhead (by omega) hlength with ⟨n, hspells, hvalue⟩
      exact ⟨n, hspells, by rw [hvalue]; rfl⟩
    · rcases spells_small hdigits (by omega) (not_lt.1 hlength) with ⟨n, hspells, hvalue⟩
      exact ⟨n, hspells, by rw [hvalue]; rfl⟩

omit hhead in
/-- The digits with an exponent denote the decimal. -/
theorem spells_scientificText (exponent : ℤ) :
    ∃ n, Spells (scientificText digits (exponent + digits.length - 1)) n ∧
      n.toDecimal.value = natOfDigits digits * 10 ^ exponent := by
  match digits, hnonempty with
  | d :: rest, _ =>
    refine ⟨⟨[d], rest, exponent + (d :: rest).length - 1⟩, ?_, ?_⟩
    · have hd := hdigits d List.mem_cons_self
      have hwhole : ∀ c ∈ [d], c.isDigit = true := by simpa using hd
      have hspells := spells_parts (Json.isWhole_singleton d) hwhole
        (fun c hc => hdigits c (List.mem_cons_of_mem _ hc))
        (.present (Numeral.readExponent_toDigits (exponent + (d :: rest).length - 1)))
      cases rest <;> exact hspells
    · rw [Decimal.value, Numeral.toDecimal]
      dsimp only
      rw [List.singleton_append, List.length_cons]
      congr 2
      push_cast
      omega

end Texts

/-- The text of a decimal denotes it. -/
theorem spells_decimalText {d : Decimal} (hd : 0 < d.digits) :
    ∃ n, Spells (json.decimalText d) n ∧ n.toDecimal.value = d.value := by
  have hdigits : ∀ c ∈ Nat.toDigits 10 d.digits, c.isDigit = true :=
    fun _ => Json.isDigit_of_mem_toDigits
  have hnonempty : Nat.toDigits 10 d.digits ≠ [] := Nat.toDigits_ne_nil
  have hhead := Json.head_toDigits hd.ne'
  have hvalue := Json.natOfDigits_toDigits d.digits
  unfold decimalText
  dsimp only
  split_ifs
  · have htext := spells_positionalText hdigits hnonempty hhead d.exponent
    rw [hvalue] at htext
    exact htext
  · have htext := spells_scientificText hdigits hnonempty d.exponent
    rw [hvalue] at htext
    exact htext

end Layout

namespace Json

/-! ## Finite doubles -/

/-- A literal with a sign in front is read as the double of its digits with that sign. -/
theorem readsBack_of_spells {x : Float} {magnitude : List Char} {n : Numeral}
    (hfinite : Binary64.isFinite x = true) (hspells : Spells magnitude n)
    (htext : FractionText.spell x =
      if Binary64.isNegative x = true then '-' :: magnitude else magnitude)
    (hvalue : (if Binary64.isNegative x = true then -n.toDecimal.toFloat else n.toDecimal.toFloat) =
      x) : ReadsBack x := by
  have hsplit : splitMinus (FractionText.spell x) = (Binary64.isNegative x, magnitude) := by
    rw [htext]
    cases Binary64.isNegative x with
    | true => rfl
    | false => exact hspells.unsigned
  have hnumber := hspells.isNumber
  rw [isNumber, hspells.unsigned] at hnumber
  constructor
  · rw [isNumber, hsplit]
    exact hnumber
  · rw [Number.fractionOfSpelling?, hsplit]
    dsimp only
    rw [hspells.read, Option.bind_some]
    change (if Binary64.isFinite (n.toFloat (Binary64.isNegative x)) = true then
      some (n.toFloat (Binary64.isNegative x)) else none) = some x
    rw [Numeral.toFloat, hvalue, if_pos hfinite]

/-- The text of a finite double without its sign. -/
def magnitudeText (x : Float) : List Char :=
  if Binary64.significand x = 0 then ['0', '.', '0']
  else Layout.json.decimalText (Decimal.shortest x .toEven)

/-- A finite double is spelled as its sign and its magnitude. -/
theorem spell_of_isFinite {x : Float} (hfinite : Binary64.isFinite x = true) :
    FractionText.spell x =
      if Binary64.isNegative x = true then '-' :: magnitudeText x else magnitudeText x := by
  have hnumber : Binary64.isNaN x = false := by
    unfold Binary64.isFinite at hfinite
    unfold Binary64.isNaN
    rw [bne_iff_ne] at hfinite
    simp [hfinite]
  change (Layout.json.write x).toList = _
  unfold Layout.write
  dsimp only
  rw [hnumber, hfinite, if_neg (by decide), if_neg (by decide), String.toList_ofList]
  rfl

/-- Finite doubles read back. -/
theorem readsBack_of_isFinite {x : Float} (hfinite : Binary64.isFinite x = true) : ReadsBack x := by
  have htext := spell_of_isFinite hfinite
  unfold magnitudeText at htext
  by_cases hzero : Binary64.significand x = 0
  · rw [if_pos hzero] at htext
    have hspells : Spells ['0', '.', '0'] ⟨['0'], ['0'], 0⟩ := ⟨rfl, rfl, rfl⟩
    apply readsBack_of_spells hfinite hspells htext
    exact Binary64.eq_zero_of_significand hfinite hzero
  · rw [if_neg hzero] at htext
    have hm := Nat.pos_of_ne_zero hzero
    have hcanonical := Binary64.canonical_of_isFinite hfinite hzero
    have hscale := Binary64.scale_le hfinite
    have hrounds := Decimal.roundsTo_shortest hfinite hm .toEven
    have hdigits := (Decimal.leading_mem_of_roundsTo hm hcanonical hscale hrounds).1
    rcases Layout.spells_decimalText hdigits with ⟨n, hspells, hvalue⟩
    rw [← hvalue] at hrounds
    apply readsBack_of_spells hfinite hspells htext
    apply Binary64.eq_of_magnitude hfinite hm
    exact Decimal.toFloat_of_roundsTo hm hcanonical hscale hrounds

/-! ## Numbers that have been read -/

/-- A number that some numeral denotes. -/
def IsRead {α : Type} [FractionText α] (x : α) : Prop :=
  ∃ negative n, FractionText.ofNumeral? negative n = some x

/-- Doubles that have been read are finite. -/
theorem isFinite_of_isRead {x : Float} (h : Json.IsRead x) : Binary64.isFinite x = true := by
  obtain ⟨negative, n, hx⟩ := h
  change (if Binary64.isFinite (n.toFloat negative) then some (n.toFloat negative) else none) =
    some x at hx
  split_ifs at hx with hfinite
  cases hx
  exact hfinite

end Json

end LeadScoring
