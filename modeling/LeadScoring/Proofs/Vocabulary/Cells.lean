import LeadScoring.Proofs.Lead.Texts
import LeadScoring.Proofs.Vocabulary.Readings

/-!
# Values as table cells

A table has only texts in its cells, while a lead may hold numbers and truth values as well.
Written as the text that a cell would have, every value is read as before, as a number, as a truth
value and as a text, with one exception: the truth value true is the number one, and its word is no
number.  So a lead is encoded as the row of its texts unless a numeric field finds the value true.

Main results:

- Theorem `Json.Number.readFloat?_spell`: the spelling of a number is read as the number.
- Theorems `Value.text?_asCell`, `Value.toFlag_asCell`, `Value.toNumber_asCell`: how the text of a
  value is read.
- Theorem `Lead.lookup?_asCells`: a lookup finds the text of what it found.
- Theorem `Vocabulary.encode_asCells`: the row of the texts of a lead is encoded as the lead.
- Theorem `Vocabulary.encode_asCells_ne`: a numeric field that finds the value true.
-/

namespace LeadScoring

/-! ## Words and digits -/

theorem toLower_of_isDigit {c : Char} (h : c.isDigit = true) : c.toLower = c := by
  simp only [Char.isDigit, ge_iff_le, Bool.and_eq_true, decide_eq_true_eq] at h
  unfold Char.toLower
  rw [dif_neg]
  rintro ⟨hlow, -⟩
  simp_all [UInt32.le_iff_toNat_le]
  omega

/-- A text in small letters is no word that begins otherwise. -/
theorem ofList_map_toLower_ne {c : Char} (hc : c.toLower = c) (cs : List Char) {word : String}
    (hword : word.toList.head? ≠ some c) : String.ofList ((c :: cs).map Char.toLower) ≠ word := by
  rintro rfl
  rw [String.toList_ofList, List.map_cons, hc] at hword
  exact hword rfl

/-- Number literals begin with a digit, with or without a minus sign. -/
theorem Json.exists_digit_of_isNumber {spelling : List Char} (h : isNumber spelling = true) :
    ∃ d ds, d.isDigit = true ∧ (splitMinus spelling).2 = d :: ds ∧
      (spelling = d :: ds ∨ spelling = '-' :: d :: ds) := by
  obtain ⟨d, ds, hd, hmagnitude⟩ :
      ∃ d ds, d.isDigit = true ∧ (splitMinus spelling).2 = d :: ds := by
    rw [isNumber, Numeral.digitRun, Bool.and_eq_true] at h
    cases hrest : (splitMinus spelling).2 with
    | nil =>
      rw [hrest] at h
      exact absurd h.1 (by decide)
    | cons d ds =>
      refine ⟨d, ds, ?_, rfl⟩
      by_contra hd
      rw [hrest, List.takeWhile_cons_of_neg hd] at h
      exact absurd h.1 (by decide)
  refine ⟨d, ds, hd, hmagnitude, ?_⟩
  unfold splitMinus at hmagnitude
  split at hmagnitude
  · exact .inr (congrArg _ hmagnitude)
  · exact .inl hmagnitude

/-! ## Spellings as free numerals -/

namespace Numeral

/-- A text that begins with a digit is no special word. -/
theorem specialValue?_of_isDigit {d : Char} (h : d.isDigit = true) (ds : List Char) :
    specialValue? (d :: ds) = none := by
  have hword : ∀ word : String, (word.toList.head?.all fun c => !c.isDigit) = true →
      (String.ofList ((d :: ds).map Char.toLower) == word) = false := by
    intro word hletter
    rw [beq_eq_false_iff_ne]
    refine ofList_map_toLower_ne (toLower_of_isDigit h) ds fun hhead => ?_
    simp [hhead, h] at hletter
  rw [specialValue?]
  rw [hword "inf" (by decide), hword "infinity" (by decide), hword "nan" (by decide)]
  rfl

/-- A number literal is read as its numeral with its sign. -/
theorem readFloat?_of_isNumber {spelling : List Char} {n : Numeral}
    (hnumber : Json.isNumber spelling = true)
    (hread : read (Json.splitMinus spelling).2 = some n) :
    readFloat? (String.ofList spelling) = some (n.toFloat (Json.splitMinus spelling).1) := by
  obtain ⟨d, ds, hd, hmagnitude, hspelling⟩ := Json.exists_digit_of_isNumber hnumber
  have hsign : takeSign spelling = Json.splitMinus spelling := by
    rcases hspelling with rfl | rfl
    · rw [Json.splitMinus_of_isDigit (by simpa using hd), takeSign]
      · rintro _ ⟨⟩
        exact absurd hd (by decide)
      · rintro _ ⟨⟩
        exact absurd hd (by decide)
    · rfl
  rw [readFloat?, String.toList_ofList, hsign]
  dsimp only
  rw [hread, hmagnitude, specialValue?_of_isDigit hd]
  rfl

end Numeral

namespace Json.Number

/-- An integer of 64 bits is read from its digits as the double nearest to it. -/
theorem toFloat_toDigits {n : ℕ} (h : n < 10 ^ 30) :
    (⟨Nat.toDigits 10 n, [], 0⟩ : Numeral).toDecimal.toFloat = Float.ofNat n := by
  have hdecimal : (⟨Nat.toDigits 10 n, [], 0⟩ : Numeral).toDecimal = ⟨n, 0⟩ := by
    rw [Numeral.toDecimal]
    simp [natOfDigits_toDigits]
  rw [hdecimal, Decimal.toFloat]
  dsimp only
  by_cases hzero : n = 0
  · subst hzero
    decide +kernel
  · have hlength : 10 ^ ((Nat.toDigits 10 n).length - 1) < 10 ^ 30 :=
      (Decimal.le_digits (Nat.pos_of_ne_zero hzero)).trans_lt h
    have hdigits : (Nat.toDigits 10 n).length - 1 < 30 :=
      (Nat.pow_lt_pow_iff_right (by decide)).1 hlength
    have hsmall : ¬ (n = 0 ∨ (0 + ((Nat.toDigits 10 n).length : ℤ)) < -330) := by omega
    rw [if_neg (by simpa using hsmall), if_neg (by omega), if_pos le_rfl]
    simp only [Int.toNat_zero, Nat.pow_eq, Nat.pow_zero, Nat.mul_one]
    rfl

/-- An integer of 64 bits has at most thirty digits. -/
theorem natAbs_lt_of_fitsWord {i : ℤ} (h : fitsWord i = true) : i.natAbs < 10 ^ 30 := by
  simp only [fitsWord, Bool.and_eq_true, decide_eq_true_eq] at h
  have hpow : (2 : ℕ) ^ 64 < 10 ^ 30 := by norm_num
  omega

/-- The spelling of a number is read as the number. -/
theorem readFloat?_spell {n : Number Float} (h : n.IsProper) :
    Numeral.readFloat? (String.ofList n.spell) = some (Value.ofNumber n) := by
  cases n with
  | int i =>
    have hdigits : ∀ c ∈ Nat.toDigits 10 i.natAbs, c.isDigit = true :=
      fun _ => isDigit_of_mem_toDigits
    have hread : Numeral.read (splitMinus (spellInt i)).2 =
        some ⟨Nat.toDigits 10 i.natAbs, [], 0⟩ := by
      rw [splitMinus_spellInt, Numeral.read, digitRun_of_isDigit hdigits]
      simp [Numeral.readTail, Nat.toDigits_ne_nil]
    rw [spell, Numeral.readFloat?_of_isNumber (isNumber_spellInt i) hread, splitMinus_spellInt,
      Numeral.toFloat, toFloat_toDigits (natAbs_lt_of_fitsWord h), Value.ofNumber]
    simp only [decide_eq_true_eq]
  | fraction x =>
    obtain ⟨hnumber, hback⟩ := Json.readsBack_of_isFinite h
    obtain ⟨n, hread, hvalue⟩ := Option.bind_eq_some_iff.1 hback
    rw [spell, Numeral.readFloat?_of_isNumber hnumber hread, Value.ofNumber]
    change (if Binary64.isFinite (n.toFloat _) = true then some (n.toFloat _) else none) =
      some x at hvalue
    split_ifs at hvalue
    exact hvalue

end Json.Number

/-! ## Values -/

namespace Value

/-- A value that is no list and no object. -/
def IsScalar : Value → Prop
  | .null | .string _ | .bool _ => True
  | .number n => n.IsProper
  | .array _ | .object _ => False

/-- A value as it stands in a table cell: its text if it has one. -/
def asCell (v : Value) : Value :=
  match v.text? with
  | some text => .string text
  | none => v

/-- A value with a text becomes this text. -/
theorem asCell_of_text? {v : Value} {text : String} (h : v.text? = some text) :
    v.asCell = .string text := by
  rw [asCell, h]

theorem asCell_of_text?_eq_none {v : Value} (h : v.text? = none) : v.asCell = v := by
  rw [asCell, h]

/-- The text of a value is not blank. -/
theorem isBlank_of_text? {v : Value} {text : String} (h : v.text? = some text) :
    Text.isBlank text = false := by
  obtain ⟨hne, htrim⟩ := trim_of_text? h
  rw [Bool.eq_false_iff]
  exact fun hblank => hne (htrim ▸ Text.trim_eq_empty_iff.2 hblank)

/-- A cell is blank if the value is. -/
theorem isBlank_asCell (v : Value) : v.asCell.isBlank = v.isBlank := by
  cases htext : v.text? with
  | none => rw [asCell_of_text?_eq_none htext]
  | some text =>
    rw [asCell_of_text? htext, isBlank, isBlank_of_text? htext]
    cases v with
    | string s =>
      rw [text?] at htext
      split_ifs at htext with hblank
      exact (Bool.eq_false_iff.2 hblank).symm
    | number | bool => rfl
    | null | array | object => cases htext

/-- A cell has the text of the value. -/
theorem text?_asCell (v : Value) : v.asCell.text? = v.text? := by
  cases htext : v.text? with
  | none => rw [asCell_of_text?_eq_none htext, htext]
  | some text =>
    rw [asCell_of_text? htext, text?, isBlank_of_text? htext, (trim_of_text? htext).2]
    rfl

/-- A number is spelled as no word for agreement. -/
theorem isAgreement_spell {n : Json.Number Float} (h : n.IsProper) :
    isAgreement (String.ofList n.spell) = false := by
  obtain ⟨d, ds, hd, -, hspell⟩ :=
    Json.exists_digit_of_isNumber (Json.Number.readsBack_of_isProper h).1
  obtain ⟨c, cs, hcs, hc, hsign⟩ : ∃ c cs, n.spell = c :: cs ∧ c.toLower = c ∧
      (c.isDigit = true ∨ c = '-') := by
    rcases hspell with hspell | hspell
    · exact ⟨d, ds, hspell, toLower_of_isDigit hd, .inl hd⟩
    · exact ⟨'-', d :: ds, hspell, by decide, .inr rfl⟩
  have hword : ∀ word : String,
      (word.toList.head?.all fun c => !c.isDigit && c != '-') = true →
      (Text.lowerAscii (String.ofList n.spell) == word) = false := by
    intro word hletter
    rw [beq_eq_false_iff_ne, Text.lowerAscii, String.toList_ofList, hcs]
    refine ofList_map_toLower_ne hc cs fun hhead => ?_
    rcases hsign with hsign | hsign <;> simp [hhead, hsign] at hletter
  rw [isAgreement]
  rw [hword "true" (by decide), hword "yes" (by decide), hword "y" (by decide)]
  rfl

/-- The cell of a string is trimmed to the same text. -/
theorem exists_asCell_string (s : String) :
    ∃ text, asCell (.string s) = .string text ∧ Text.trim text = Text.trim s := by
  cases htext : text? (.string s) with
  | none => exact ⟨s, asCell_of_text?_eq_none htext, rfl⟩
  | some text =>
    refine ⟨text, asCell_of_text? htext, ?_⟩
    rw [text?] at htext
    split_ifs at htext
    cases htext
    exact Text.trim_trim s

/-- The cell of a number is read as the number. -/
theorem float?_asCell_number {n : Json.Number Float} (h : n.IsProper) :
    float? (asCell (.number n)) = some (ofNumber n) := by
  rw [asCell_of_text? rfl, float?, (trim_of_text? (v := .number n) rfl).2,
    Json.Number.readFloat?_spell h]

/-- A cell is the number of the value, except that the word for true is none. -/
theorem toNumber_asCell {v : Value} (h : v.IsScalar) (htrue : v ≠ .bool true) :
    v.asCell.toNumber = v.toNumber := by
  cases v with
  | string s =>
    obtain ⟨text, hcell, htrim⟩ := exists_asCell_string s
    rw [hcell, toNumber, toNumber, float?, float?, htrim]
  | number n => rw [toNumber, float?_asCell_number h, toNumber, float?]
  | bool b =>
    cases b
    · decide +kernel
    · exact absurd rfl htrue
  | null => rfl
  | array | object => cases h

/-- A cell says yes if the value does. -/
theorem toFlag_asCell {v : Value} (h : v.IsScalar) : v.asCell.toFlag = v.toFlag := by
  cases v with
  | string s =>
    obtain ⟨text, hcell, htrim⟩ := exists_asCell_string s
    rw [hcell, toFlag, toFlag, toNumber, toNumber, float?, float?, htrim]
  | number n =>
    have hnumber := toNumber_asCell (v := .number n) h (by simp)
    rw [asCell_of_text? rfl] at hnumber ⊢
    simp only [toFlag, (trim_of_text? (v := .number n) rfl).2, isAgreement_spell h, hnumber,
      Bool.false_or]
  | bool b => cases b <;> decide +kernel
  | null => rfl
  | array | object => cases h

end Value

/-! ## Leads -/

theorem Json.mem_of_findMember? {β : Type} {key : String} {value : β}
    {members : List (String × β)} (h : findMember? key members = some value) :
    (key, value) ∈ members := by
  induction members with
  | nil => cases h
  | cons member members ih =>
    obtain ⟨k, v⟩ := member
    rw [findMember?] at h
    split_ifs at h with hkey
    · cases h
      rw [hkey]
      exact List.mem_cons_self
    · exact List.mem_cons_of_mem _ (ih h)

/-- Changing the values changes the value that is found. -/
theorem Json.findMember?_map {β γ : Type} (f : β → γ) (key : String)
    (members : List (String × β)) :
    findMember? key (members.map fun (k, v) => (k, f v)) = (findMember? key members).map f := by
  induction members with
  | nil => rfl
  | cons member members ih =>
    obtain ⟨k, v⟩ := member
    rw [List.map_cons, findMember?, findMember?, ih]
    split_ifs <;> rfl

namespace Lead

/-- A lead without lists and objects. -/
def HoldsScalars (lead : Lead) : Prop :=
  ∀ entry ∈ lead.entries, entry.2.IsScalar

/-- A lead with the text of every value that is not blank in its place. -/
def asCells (lead : Lead) : Lead :=
  ⟨lead.entries.map fun (key, v) => (key, v.asCell)⟩

variable {lead : Lead} {keys : List String}

/-- A lead of cells holds the cells of what the lead holds. -/
theorem held?_asCells (lead : Lead) (key : String) :
    lead.asCells.held? key = (lead.held? key).map Value.asCell := by
  have hget : lead.asCells.get? key = (lead.get? key).map Value.asCell :=
    Json.findMember?_map Value.asCell key lead.entries
  rw [held?, held?, hget]
  cases lead.get? key with
  | none => rfl
  | some v =>
    simp only [Option.map_some, Option.filter_some, Value.isBlank_asCell]
    split_ifs <;> rfl

/-- A lookup finds the text of what it found. -/
theorem lookup?_asCells (lead : Lead) (keys : List String) :
    lead.asCells.lookup? keys = (lead.lookup? keys).map Value.asCell := by
  rw [lookup?_eq_findSome?, lookup?_eq_findSome?]
  induction keys with
  | nil => rfl
  | cons key keys ih =>
    rw [List.findSome?_cons, List.findSome?_cons, held?_asCells, ih]
    cases lead.held? key <;> rfl

/-- What a lookup finds is a value of the lead. -/
theorem HoldsScalars.lookup? (h : lead.HoldsScalars) {v : Value}
    (hv : lead.lookup? keys = some v) : v.IsScalar := by
  rw [lookup?_eq_findSome?] at hv
  obtain ⟨key, -, hkey⟩ := List.exists_of_findSome?_eq_some hv
  exact h _ (Json.mem_of_findMember? (Option.filter_eq_some_iff.1 hkey).1)

theorem text?_asCells (lead : Lead) (keys : List String) :
    lead.asCells.text? keys = lead.text? keys := by
  rw [text?, text?, lookup?_asCells]
  cases lead.lookup? keys with
  | none => rfl
  | some v => exact v.text?_asCell

theorem flag_asCells (h : lead.HoldsScalars) (keys : List String) :
    lead.asCells.flag keys = lead.flag keys := by
  rw [flag, flag, lookup?_asCells]
  cases hv : lead.lookup? keys with
  | none => rfl
  | some v => exact Value.toFlag_asCell (h.lookup? hv)

/-- A lead of cells has the same numbers, where none is read from `true`. -/
theorem number_asCells (h : lead.HoldsScalars) (htrue : lead.lookup? keys ≠ some (.bool true)) :
    lead.asCells.number keys = lead.number keys := by
  rw [number, number, lookup?_asCells]
  cases hv : lead.lookup? keys with
  | none => rfl
  | some v =>
    refine Value.toNumber_asCell (h.lookup? hv) ?_
    rintro rfl
    exact htrue hv

end Lead

/-! ## Encoding -/

namespace Field

/-- A numeric field that finds the truth value true. -/
def FindsTrue (f : Field) (lead : Lead) : Prop :=
  f.kind = .numeric ∧ lead.lookup? f.lookupKeys = some (.bool true)

end Field

namespace Vocabulary

variable {α : Type} [Scalar α] {lead : Lead}

/-- What a field writes for the texts of a lead. -/
theorem entry?_asCells (h : lead.HoldsScalars) {f : Field} (hf : ¬ f.FindsTrue lead) :
    ( entry? lead.asCells f : Option (String × α)) = entry? lead f := by
  unfold entry?
  cases hkind : f.kind with
  | numeric => rw [Lead.number_asCells h fun htrue => hf ⟨hkind, htrue⟩]
  | flag => rw [Lead.flag_asCells h]
  | categorical => rw [Lead.text?_asCells]

/-- What a numeric field writes that finds the value true: one, and zero for its text. -/
theorem entry?_of_findsTrue {f : Field} (hf : f.FindsTrue lead) :
    ( entry? lead f : Option (String × α)) = some (f.name, Scalar.ofFloat 1) ∧
      ( entry? lead.asCells f : Option (String × α)) = some (f.name, Scalar.ofFloat 0) := by
  obtain ⟨hkind, hvalue⟩ := hf
  have hone : lead.number f.lookupKeys = 1 := by
    rw [Lead.number, hvalue]
    decide +kernel
  have hzero : lead.asCells.number f.lookupKeys = 0 := by
    rw [Lead.number, Lead.lookup?_asCells, hvalue]
    decide +kernel
  unfold entry?
  rw [hkind, hone, hzero]
  exact ⟨rfl, rfl⟩

/-- The row of the texts of a lead is encoded as the lead, unless a numeric field finds the value
true: such a field writes one for the lead and zero for its text, and every other field writes the
same for both. -/
theorem encode_asCells (v : Vocabulary) (h : lead.HoldsScalars) :
    ((∀ f ∈ v.fields, ¬ f.FindsTrue lead) →
      (v.encode lead.asCells : Array α) = v.encode lead) ∧
    ∀ f ∈ v.fields,
      (¬ f.FindsTrue lead → ( entry? lead.asCells f : Option (String × α)) = entry? lead f) ∧
      (f.FindsTrue lead → ( entry? lead f : Option (String × α)) =
          some (f.name, Scalar.ofFloat 1) ∧
        ( entry? lead.asCells f : Option (String × α)) = some (f.name, Scalar.ofFloat 0)) := by
  refine ⟨fun hfields => ?_, fun f _ => ⟨entry?_asCells h, entry?_of_findsTrue⟩⟩
  rw [encode, encode]
  refine List.foldl_ext _ _ _ fun values f hf => ?_
  rw [entry?_asCells h (hfields f hf)]

/-- Inputs of every kind. -/
def mixedVocabulary : Vocabulary :=
  .ofNames ["Plan_Pro", "Plan_4", "Downloads", "Page Views", "Webinar"]
    [⟨"Plan", .categorical, []⟩, ⟨"Downloads", .numeric, []⟩, ⟨"Page Views", .numeric, ["views"]⟩,
      ⟨"Webinar", .flag, []⟩]

/-- A lead with values of every kind. -/
def mixedLead : Lead where
  entries := [("Downloads", .string " 3 "), ("Page Views", .null), ("Plan", .number (.int 4)),
    ("Webinar", .bool true), ("views", .number (.fraction 12.5))]

/-- A lead with a padded text, a null, numbers and a flag, and the one with their cells. -/
theorem encode_asCells_mixedLead :
    mixedLead.HoldsScalars ∧ (∀ f ∈ mixedVocabulary.fields, ¬ f.FindsTrue mixedLead) ∧
      mixedLead.asCells.text? ["views"] = some "12.5" ∧
      (mixedVocabulary.encode mixedLead.asCells : Array Float) =
        mixedVocabulary.encode mixedLead ∧
      mixedVocabulary.encode mixedLead = #[0, 1, 3, 12.5, (1 : Float)] := by
  have hscalars : mixedLead.HoldsScalars := by
    have hint : Json.Number.fitsWord 4 = true := by decide
    have hfraction : Binary64.isFinite 12.5 = true := by decide +kernel
    simp [Lead.HoldsScalars, mixedLead, Value.IsScalar, Json.Number.IsProper, hint, hfraction]
  have hfields : ∀ f ∈ mixedVocabulary.fields, ¬ f.FindsTrue mixedLead := by
    have htexts : ∀ f ∈ mixedVocabulary.fields, f.kind = .numeric →
        mixedLead.text? f.lookupKeys ≠ some "true" := by
      decide +kernel
    rintro f hf ⟨hkind, hvalue⟩
    exact htexts f hf hkind (congrArg (Option.bind · Value.text?) hvalue)
  exact ⟨hscalars, hfields, by decide +kernel, (encode_asCells mixedVocabulary hscalars).1 hfields,
    by decide +kernel⟩

/-- The truth value true is one download, and the text of it is none. -/
theorem encode_asCells_ne :
    ∃ (v : Vocabulary) (lead : Lead), lead.HoldsScalars ∧
      (v.encode lead.asCells : Array Float) ≠ v.encode lead := by
  refine ⟨.ofNames ["Downloads"] [⟨"Downloads", .numeric, []⟩], ⟨[("Downloads", .bool true)]⟩,
    ?_, by decide +kernel⟩
  simp [Lead.HoldsScalars, Value.IsScalar]

end Vocabulary

end LeadScoring
