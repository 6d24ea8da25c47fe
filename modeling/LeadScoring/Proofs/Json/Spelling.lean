import LeadScoring.Json.Decode
import Mathlib.Data.List.TakeWhile
import Mathlib.Data.Nat.Init

/-!
# Spellings read back

Strings and whole numbers are read back from their spellings.  Fractional numbers are spelled by
their own type; whether one of them reads back is a property of that number.

Main results:

- Theorem `unescape?_escape`, `stringOf?_spellString`: strings read back.
- Theorem `intOfSpelling?_toDigits`: natural numbers of 64 bits read back.
- Definitions `ReadsBack` and `Number.ReadsBack`: a number whose spelling denotes it.
- Theorem `isNumberChar_of_isNumber`: the characters of number literals.
-/

namespace LeadScoring.Json

/-! ## Strings -/

theorem hexValue?_hexDigit : ∀ n < 16, hexValue? (hexDigit n) = some n := by
  decide

/-- Whether the rest of a spelling begins with another four-digit escape. -/
theorem unescape?_cases (rest : List Char) :
    (∃ e f g h tail, rest = '\\' :: 'u' :: e :: f :: g :: h :: tail) ∨
      ∀ e f g h tail, rest = '\\' :: 'u' :: e :: f :: g :: h :: tail → False := by
  by_cases hrest : ∃ e f g h tail, rest = '\\' :: 'u' :: e :: f :: g :: h :: tail
  · exact Or.inl hrest
  · exact Or.inr fun e f g h tail heq => hrest ⟨e, f, g, h, tail, heq⟩

/-- Four characters that are no code unit end the unescaping. -/
theorem unescape?_noUnit {a b c d : Char} (hunit : unit? a b c d = none) (rest : List Char) :
    unescape? ('\\' :: 'u' :: a :: b :: c :: d :: rest) = none := by
  rcases unescape?_cases rest with ⟨e, f, g, h, tail, rfl⟩ | hrest
  · rw [unescape?.eq_2, hunit]
  · rw [unescape?.eq_3 _ _ _ _ _ hrest, hunit]

/-- A four-digit escape that is no surrogate stands for its character, whatever follows it. -/
theorem unescape?_unit {a b c d : Char} {u : Nat} (hunit : unit? a b c d = some u)
    (hhigh : isHighSurrogate u = false) (hlow : isLowSurrogate u = false) (rest : List Char) :
    unescape? ('\\' :: 'u' :: a :: b :: c :: d :: rest) =
      (unescape? rest).map (Char.ofNat u :: ·) := by
  rcases unescape?_cases rest with ⟨e, f, g, h, tail, rfl⟩ | hrest
  · rw [unescape?.eq_2, hunit]
    cases hnext : unit? e f g h with
    | some low => simp [hhigh, hlow]
    | none => simp [unescape?_noUnit hnext]
  · rw [unescape?.eq_3 _ _ _ _ _ hrest, hunit]
    simp [hhigh, hlow]

/-- A backslash and one character stand for the character that the escape names. -/
theorem unescape?_simple {c x : Char} (hc : c ≠ 'u') (hsimple : simpleEscape? c = some x)
    (rest : List Char) : unescape? ('\\' :: c :: rest) = (unescape? rest).map (x :: ·) := by
  rw [unescape?.eq_4 _ _ (fun _ _ _ _ _ _ _ _ _ heq _ => hc heq) fun _ _ _ _ _ heq _ => hc heq,
    hsimple]

/-- A character without a backslash stands for itself. -/
theorem unescape?_plain {c : Char} (hc : c ≠ '\\') (rest : List Char) :
    unescape? (c :: rest) = (unescape? rest).map (c :: ·) :=
  unescape?.eq_6 _ _ (fun _ _ _ _ _ _ _ _ _ heq _ => hc heq) (fun _ _ _ _ _ heq _ => hc heq)
    (fun _ _ heq _ => hc heq) fun heq _ => hc heq

/-- The spelling of a character stands for it, whatever follows. -/
theorem unescape?_escapeChar (c : Char) (rest : List Char) :
    unescape? (escapeChar c ++ rest) = (unescape? rest).map (c :: ·) := by
  unfold escapeChar
  split_ifs with h1 h2 h3 h4 h5 h6 h7 h8
  · subst h1
    exact unescape?_simple (by decide) (by decide) rest
  · subst h2
    exact unescape?_simple (by decide) (by decide) rest
  · subst h3
    exact unescape?_simple (by decide) (by decide) rest
  · subst h4
    exact unescape?_simple (by decide) (by decide) rest
  · subst h5
    exact unescape?_simple (by decide) (by decide) rest
  · subst h6
    exact unescape?_simple (by decide) (by decide) rest
  · subst h7
    exact unescape?_simple (by decide) (by decide) rest
  · have hunit : unit? '0' '0' (hexDigit (c.toNat / 16)) (hexDigit (c.toNat % 16)) =
        some c.toNat := by
      have hzero : hexValue? '0' = some 0 := by decide
      rw [unit?, hzero, hexValue?_hexDigit _ (by omega), hexValue?_hexDigit _ (by omega)]
      simp only [Option.some.injEq]
      omega
    have hhigh : isHighSurrogate c.toNat = false := by
      simp only [isHighSurrogate, Bool.and_eq_false_iff, decide_eq_false_iff_not]
      omega
    have hlow : isLowSurrogate c.toNat = false := by
      simp only [isLowSurrogate, Bool.and_eq_false_iff, decide_eq_false_iff_not]
      omega
    simp only [List.cons_append, List.nil_append]
    rw [unescape?_unit hunit hhigh hlow, Char.ofNat_toNat]
  · exact unescape?_plain h2 rest

/-- Strings read back from their spelling. -/
theorem unescape?_escape (cs : List Char) : unescape? (escape cs) = some cs := by
  induction cs with
  | nil => rfl
  | cons c cs ih =>
    rw [escape, List.flatMap_cons, unescape?_escapeChar, ← escape, ih]
    rfl

/-- The spelling of a string is read as the string. -/
theorem stringOf?_spellString (s : String) : stringOf? (spellString s) = some s := by
  rw [stringOf?, spellString, unescape?_escape, Option.map_some, String.ofList_toList]

/-! ## Whole numbers -/

theorem natOfDigits_toDigits (n : Nat) : Numeral.natOfDigits (Nat.toDigits 10 n) = n :=
  Nat.ofDigitChars_ten_toDigits

theorem isDigit_of_mem_toDigits {n : Nat} {c : Char} (h : c ∈ Nat.toDigits 10 n) :
    c.isDigit = true :=
  Nat.isDigit_of_mem_toDigits (by omega) (by omega) h

/-- A text that begins with a digit carries no sign. -/
theorem splitMinus_of_isDigit {cs : List Char} (h : ∀ c ∈ cs.head?, c.isDigit = true) :
    splitMinus cs = (false, cs) := by
  unfold splitMinus
  split
  · exact absurd (h '-' rfl) (by decide)
  · rfl

/-- A run of digits ends where something else begins. -/
theorem digitRun_append {digits rest : List Char} (hdigits : ∀ c ∈ digits, c.isDigit = true)
    (hrest : ∀ c ∈ rest.head?, c.isDigit = false) :
    Numeral.digitRun (digits ++ rest) = (digits, rest) := by
  rw [Numeral.digitRun, List.takeWhile_append_of_pos hdigits,
    List.dropWhile_append_of_pos hdigits]
  cases rest with
  | nil => simp
  | cons c rest =>
    have hc := hrest c rfl
    rw [List.takeWhile_cons_of_neg (by simp [hc]), List.dropWhile_cons_of_neg (by simp [hc]),
      List.append_nil]

theorem digitRun_of_isDigit {cs : List Char} (h : ∀ c ∈ cs, c.isDigit = true) :
    Numeral.digitRun cs = (cs, []) := by
  have hrun : Numeral.digitRun (cs ++ []) = (cs, []) := digitRun_append h (by simp)
  rwa [List.append_nil] at hrun

/-- Digits do not start with a zero unless they are those of zero. -/
theorem head_toDigits {n : Nat} (h : n ≠ 0) : (Nat.toDigits 10 n).head? ≠ some '0' := by
  induction n using Nat.strong_induction_on with
  | _ n ih =>
    rw [Nat.toDigits_eq_if (by omega)]
    split_ifs with hlt
    · have hdigit : ∀ m < 10, m ≠ 0 → m.digitChar ≠ '0' := by decide
      simpa using hdigit n hlt h
    · have hrest := ih (n / 10) (by omega) (by omega)
      rw [List.head?_append]
      cases hhead : (Nat.toDigits 10 (n / 10)).head? with
      | none => exact absurd (List.head?_eq_none_iff.1 hhead) Nat.toDigits_ne_nil
      | some c =>
        rw [hhead] at hrest
        exact hrest

/-- Digits start a number unless the first one is a zero. -/
theorem isWhole_of_head {digits : List Char} (hnonempty : digits ≠ [])
    (hhead : digits.head? ≠ some '0') : isWhole digits = true := by
  unfold isWhole
  split
  · exact absurd rfl hnonempty
  · rfl
  · exact absurd rfl hhead
  · rfl

theorem isWhole_toDigits (n : Nat) : isWhole (Nat.toDigits 10 n) = true := by
  by_cases h : n = 0
  · rw [h]
    decide
  · exact isWhole_of_head Nat.toDigits_ne_nil (head_toDigits h)

/-- Natural numbers are spelled as number literals. -/
theorem isNumber_toDigits (n : Nat) : isNumber (Nat.toDigits 10 n) = true := by
  have hdigits : ∀ c ∈ Nat.toDigits 10 n, c.isDigit = true := fun _ => isDigit_of_mem_toDigits
  rw [isNumber, splitMinus_of_isDigit fun c hc => hdigits c (List.mem_of_head? hc)]
  dsimp only
  rw [digitRun_of_isDigit hdigits]
  dsimp only
  rw [isWhole_toDigits]
  rfl

/-- Natural numbers of 64 bits read back from their digits. -/
theorem intOfSpelling?_toDigits {n : Nat} (h : n < 0x10000000000000000) :
    Number.intOfSpelling? (Nat.toDigits 10 n) = some (n : Int) := by
  have hdigits : ∀ c ∈ Nat.toDigits 10 n, c.isDigit = true := fun _ => isDigit_of_mem_toDigits
  have hfits : Number.fitsWord (n : Int) = true := by
    simp only [Number.fitsWord, Bool.and_eq_true, decide_eq_true_eq]
    omega
  rw [Number.intOfSpelling?, splitMinus_of_isDigit fun c hc => hdigits c (List.mem_of_head? hc)]
  dsimp only
  rw [List.all_eq_true.2 hdigits, natOfDigits_toDigits]
  simp [hfits]

theorem spellInt_natCast (n : Nat) : Number.spellInt (n : Int) = Nat.toDigits 10 n := by
  rw [Number.spellInt, if_neg (by omega), Int.natAbs_natCast]

/-! ## Fractional numbers -/

/-- A fractional number is spelled as a number literal that denotes it. -/
def ReadsBack {α : Type} [FractionText α] (x : α) : Prop :=
  isNumber (FractionText.spell x) = true ∧
    Number.fractionOfSpelling? (FractionText.spell x) = some x

/-- A number that reads back is readable as a number of either kind. -/
theorem isSome_ofSpelling? {α : Type} [FractionText α] {x : α} (h : ReadsBack x) :
    ∃ n : Number α, Number.ofSpelling? (FractionText.spell x) = some n := by
  unfold Number.ofSpelling?
  cases Number.intOfSpelling? (FractionText.spell x) with
  | some i => exact ⟨_, rfl⟩
  | none => exact ⟨_, by rw [h.2]; rfl⟩

/-- A number is spelled as a literal that is read as this number, of the same kind. -/
def Number.ReadsBack {α : Type} [FractionText α] (n : Number α) : Prop :=
  isNumber n.spell = true ∧ Number.ofSpelling? n.spell = some n

/-! ## Characters of number literals -/

/-- The characters that number literals are made of. -/
def isNumberChar (c : Char) : Bool :=
  c.isDigit || c == '-' || c == '+' || c == '.' || c == 'e' || c == 'E'

theorem isNumberChar_of_isDigit {c : Char} (h : c.isDigit = true) : isNumberChar c = true := by
  simp [isNumberChar, h]

theorem forall_of_digitRun {cs : List Char}
    (h : ∀ c ∈ (Numeral.digitRun cs).2, isNumberChar c = true) :
    ∀ c ∈ cs, isNumberChar c = true := by
  intro c hc
  rw [← List.takeWhile_append_dropWhile (p := Char.isDigit) (l := cs), List.mem_append] at hc
  rcases hc with hc | hc
  · exact isNumberChar_of_isDigit (List.mem_takeWhile_imp hc)
  · exact h c hc

theorem forall_of_readExponent {cs : List Char} (h : (Numeral.readExponent cs).isSome = true) :
    ∀ c ∈ cs, isNumberChar c = true := by
  have hdigits : ∀ c ∈ (Numeral.takeSign cs).2, isNumberChar c = true := by
    unfold Numeral.readExponent at h
    dsimp only at h
    apply forall_of_digitRun
    split at h
    · cases h
    · rename_i heq
      rw [heq]
      simp
    · cases h
  intro c hc
  unfold Numeral.takeSign at hdigits
  split at hdigits
  · rcases List.mem_cons.1 hc with rfl | hc
    · decide
    · exact hdigits c hc
  · rcases List.mem_cons.1 hc with rfl | hc
    · decide
    · exact hdigits c hc
  · exact hdigits c hc

theorem forall_of_isExponentTail {cs : List Char} (h : isExponentTail cs = true) :
    ∀ c ∈ cs, isNumberChar c = true := by
  cases cs with
  | nil => simp
  | cons d cs =>
    simp only [isExponentTail, Bool.and_eq_true, Bool.or_eq_true, beq_iff_eq] at h
    intro c hc
    rcases List.mem_cons.1 hc with rfl | hc
    · rcases h.1 with rfl | rfl <;> decide
    · exact forall_of_readExponent h.2 c hc

theorem forall_of_isFractionTail {cs : List Char} (h : isFractionTail cs = true) :
    ∀ c ∈ cs, isNumberChar c = true := by
  unfold isFractionTail at h
  split at h
  · rename_i cs
    dsimp only at h
    rw [Bool.and_eq_true] at h
    intro c hc
    rcases List.mem_cons.1 hc with rfl | hc
    · decide
    · exact forall_of_digitRun (forall_of_isExponentTail h.2) c hc
  · exact forall_of_isExponentTail h

/-- Number literals are made of digits, signs, points and exponent letters. -/
theorem isNumberChar_of_isNumber {spelling : List Char} (h : isNumber spelling = true) :
    ∀ c ∈ spelling, isNumberChar c = true := by
  unfold isNumber at h
  dsimp only at h
  rw [Bool.and_eq_true] at h
  have hrest := forall_of_digitRun (forall_of_isFractionTail h.2)
  unfold splitMinus at hrest
  split at hrest
  · intro c hc
    rcases List.mem_cons.1 hc with rfl | hc
    · decide
    · exact hrest c hc
  · exact hrest

theorem ne_nil_of_isNumber {spelling : List Char} (h : isNumber spelling = true) :
    spelling ≠ [] := by
  rintro rfl
  exact absurd h (by decide)

end LeadScoring.Json
