import LeadScoring.Proofs.Json.Reading
import LeadScoring.Text

/-!
# Texts next to each other

What a JSON text is read as when something stands in front of it.  The four characters that may
stand between tokens change nothing.  Any other blank begins a word that is no token, and behind a
complete value no second one is read.  Compact texts hold no control characters, so they stay on one
line.

Main results:

- Theorem `Scanner.run_spaces`: blanks of JSON are skipped.
- Theorem `Raw.parse?_foreignBlank`: another blank in front refuses a text.
- Theorem `Raw.parse?_append_object`: a second value refuses a text.
- Theorem `Raw.le_of_mem_compact`: compact texts hold no control characters.
-/

namespace LeadScoring.Json

namespace Scanner

/-! ## Blanks in front -/

theorem run_append (s : Scanner) (cs ds : List Char) :
    run s (cs ++ ds) = (run s cs).bind fun s => run s ds := by
  induction cs generalizing s with
  | nil => rfl
  | cons c cs ih =>
    rw [List.cons_append, run, run]
    cases s.step c with
    | none => rfl
    | some s => exact ih s

/-- The characters that may stand between tokens are skipped. -/
theorem run_spaces {spaces : List Char} (h : ∀ c ∈ spaces, Token.isSpace c = true)
    (ts : List Token) (rest : List Char) :
    run ⟨ts, .between⟩ (spaces ++ rest) = run ⟨ts, .between⟩ rest := by
  induction spaces with
  | nil => rfl
  | cons c spaces ih =>
    rw [List.forall_mem_cons] at h
    rw [List.cons_append, run, step, stepBetween, if_pos h.1]
    exact ih h.2

/-- A word that no letters complete to a token is refused where it ends. -/
theorem run_word_refused {letters cs : List Char}
    (hword : ∀ more, Token.ofWord? (letters.reverse ++ more) = none)
    (hend : ∃ d ∈ cs, endsWord d = true) (ts : List Token) :
    run ⟨ts, .word letters⟩ cs = none := by
  induction cs generalizing letters with
  | nil => simp at hend
  | cons c cs ih =>
    rw [run, step]
    by_cases hc : endsWord c = true
    · have hrefused := hword []
      rw [List.append_nil] at hrefused
      simp only [if_pos hc, hrefused]
    · simp only [if_neg hc]
      apply ih
      · intro more
        rw [List.reverse_cons, List.append_assoc]
        exact hword _
      · obtain ⟨d, hd, hends⟩ := hend
        rcases List.mem_cons.1 hd with rfl | hd
        · exact absurd hends hc
        · exact ⟨d, hd, hends⟩

/-- Blank characters are control characters, the space, or outside ASCII. -/
theorem toNat_of_isBlankChar {c : Char} (h : Text.isBlankChar c = true) :
    c.toNat ≤ 0x20 ∨ 0x80 < c.toNat := by
  simp [Text.isBlankChar, Text.blankRanges] at h
  omega

theorem toNat_of_isNumberChar {c : Char} (h : isNumberChar c = true) :
    0x20 < c.toNat ∧ c.toNat < 0x80 := by
  simp only [isNumberChar, Char.isDigit, Bool.or_eq_true, Bool.and_eq_true, decide_eq_true_eq,
    beq_iff_eq] at h
  rcases h with ((((⟨hlow, hhigh⟩ | rfl) | rfl) | rfl) | rfl) | rfl
  · have hlow' : 48 ≤ c.toNat := hlow
    have hhigh' : c.toNat ≤ 57 := hhigh
    omega
  all_goals decide

/-- A blank character is none of the visible ones of ASCII. -/
theorem ne_of_isBlankChar {c d : Char} (h : Text.isBlankChar c = true)
    (hd : 0x20 < d.toNat ∧ d.toNat < 0x80) : c ≠ d := by
  rintro rfl
  have hrange := toNat_of_isBlankChar h
  omega

/-- No token begins with a blank character. -/
theorem ofWord?_of_isBlankChar {c : Char} (h : Text.isBlankChar c = true) (more : List Char) :
    Token.ofWord? (c :: more) = none := by
  have hnumber : isNumber (c :: more) = false := by
    by_contra hnumber
    have hchar := isNumberChar_of_isNumber (Bool.not_eq_false _ ▸ hnumber) c List.mem_cons_self
    exact ne_of_isBlankChar h (toNat_of_isNumberChar hchar) rfl
  have hn : c ≠ 'n' := ne_of_isBlankChar h (by decide)
  have ht : c ≠ 't' := ne_of_isBlankChar h (by decide)
  have hf : c ≠ 'f' := ne_of_isBlankChar h (by decide)
  simp [Token.ofWord?, hnumber, hn, ht, hf]

/-- A blank that may not stand between tokens is refused, if anything follows that ends its word. -/
theorem run_foreignBlank {c : Char} (hblank : Text.isBlankChar c = true)
    (hspace : Token.isSpace c = false) {rest : List Char} (hend : ∃ d ∈ rest, endsWord d = true)
    (ts : List Token) : run ⟨ts, .between⟩ (c :: rest) = none := by
  have hquote : c ≠ '"' := ne_of_isBlankChar hblank (by decide)
  have hmark : Token.ofMark? c = none := by
    have hvisible : ∀ d ∈ ['[', ']', '{', '}', ',', ':'], 0x20 < d.toNat ∧ d.toNat < 0x80 := by
      simp
    have hne : ∀ d ∈ ['[', ']', '{', '}', ',', ':'], c ≠ d :=
      fun d hd => ne_of_isBlankChar hblank (hvisible d hd)
    simp only [List.forall_mem_cons] at hne
    simp [Token.ofMark?, hne]
  have hstep : step ⟨ts, .between⟩ c = some ⟨ts, .word [c]⟩ := by
    simp [step, stepBetween, hspace, hquote, hmark]
  have hword : ∀ more, Token.ofWord? ([c].reverse ++ more) = none :=
    ofWord?_of_isBlankChar hblank
  rw [run, hstep]
  exact run_word_refused hword hend ts

/-! ## Tokens in front -/

/-- The automaton with further tokens in front of those it has read. -/
def behind (before : List Token) (s : Scanner) : Scanner :=
  ⟨s.tokens ++ before, s.state⟩

/-- Tokens in front have no influence on the step between two words. -/
theorem stepBetween_behind (before ts : List Token) (c : Char) :
    stepBetween (ts ++ before) c = (stepBetween ts c).map (behind before) := by
  unfold stepBetween
  split_ifs
  · rfl
  · rfl
  · cases Token.ofMark? c <;> rfl

/-- What has been read before does not matter to the next character. -/
theorem step_behind (before : List Token) (s : Scanner) (c : Char) :
    step (behind before s) c = (step s c).map (behind before) := by
  obtain ⟨ts, state⟩ := s
  cases state with
  | between => exact stepBetween_behind before ts c
  | word letters =>
    simp only [step, behind]
    split_ifs
    · cases Token.ofWord? letters.reverse with
      | none => rfl
      | some t => exact stepBetween_behind before (t :: ts) c
    · rfl
  | string letters =>
    simp only [step, behind]
    split_ifs <;> rfl
  | escape letters =>
    simp only [step, behind]
    split_ifs <;> rfl
  | hex letters left =>
    simp only [step, behind]
    split_ifs <;> rfl

/-- Tokens in front have no influence on a run. -/
theorem run_behind (before : List Token) (s : Scanner) (cs : List Char) :
    run (behind before s) cs = (run s cs).map (behind before) := by
  induction cs generalizing s with
  | nil => rfl
  | cons c cs ih =>
    rw [run, run, step_behind]
    cases s.step c with
    | none => rfl
    | some s => exact ih s

/-- Tokens in front are delivered in front of the others. -/
theorem finish_behind (before : List Token) (s : Scanner) :
    finish (behind before s) = (finish s).map (before.reverse ++ ·) := by
  obtain ⟨ts, state⟩ := s
  cases state with
  | word letters =>
    simp only [finish, behind]
    cases Token.ofWord? letters.reverse <;> simp
  | _ => simp [finish, behind]

/-- A brace ends whatever token stands in front of it. -/
theorem step_openObject {s : Scanner} {ts : List Token} (h : s.finish = some ts) :
    s.step '{' = some (behind (.openObject :: ts.reverse) start) := by
  obtain ⟨tokens, state⟩ := s
  cases state with
  | between =>
    cases h
    rw [List.reverse_reverse]
    rfl
  | word letters =>
    obtain ⟨t, ht, rfl⟩ := Option.map_eq_some_iff.1 h
    have hends : endsWord '{' = true := by decide
    simp only [step, if_pos hends, ht, List.reverse_reverse]
    rfl
  | string letters => cases h
  | escape letters => cases h
  | hex letters left => cases h

end Scanner

/-- The tokens of a text, of a brace behind it, and of what follows. -/
theorem tokens?_append_object {cs : List Char} {ts : List Token} (h : tokens? cs = some ts)
    (rest : List Char) :
    tokens? (cs ++ '{' :: rest) = (tokens? rest).map fun us => ts ++ .openObject :: us := by
  obtain ⟨s, hrun, hfinish⟩ := Option.bind_eq_some_iff.1 h
  rw [tokens?, tokens?, Scanner.run_append, hrun, Option.bind_some, Scanner.run,
    Scanner.step_openObject hfinish]
  dsimp only
  rw [Scanner.run_behind]
  cases Scanner.start.run rest with
  | none => rfl
  | some s =>
    rw [Option.map_some, Option.bind_some, Option.bind_some, Scanner.finish_behind,
      List.reverse_cons, List.reverse_reverse]
    simp only [List.append_assoc, List.singleton_append]

namespace Reader

theorem run_append (r : Reader) (ts us : List Token) :
    run r (ts ++ us) = (run r ts).bind fun r => run r us := by
  induction ts generalizing r with
  | nil => rfl
  | cons t ts ih =>
    rw [List.cons_append, run, run]
    cases r.step t with
    | none => rfl
    | some r => exact ih r

/-- Behind a complete value no token is read. -/
theorem step_of_finish {r : Reader} {value : Raw} (h : r.finish = some value) (t : Token) :
    r.step t = none := by
  unfold finish at h
  unfold step
  cases hexpected : r.expected <;> rw [hexpected] at h <;> first | rfl | cases h

end Reader

namespace Raw

/-- A complete value is followed by no further token. -/
theorem ofTokens?_append_cons {ts : List Token} {value : Raw} (h : ofTokens? ts = some value)
    (t : Token) (us : List Token) : ofTokens? (ts ++ t :: us) = none := by
  obtain ⟨r, hrun, hfinish⟩ := Option.bind_eq_some_iff.1 h
  rw [ofTokens?, Reader.run_append, hrun, Option.bind_some, Reader.run,
    Reader.step_of_finish hfinish]
  rfl

/-- Blanks of JSON in front of a text change nothing. -/
theorem parse?_spaces {spaces : List Char} (h : ∀ c ∈ spaces, Token.isSpace c = true)
    (cs : List Char) : parse? (String.ofList (spaces ++ cs)) = parse? (String.ofList cs) := by
  rw [parse?, parse?, String.toList_ofList, String.toList_ofList, tokens?, tokens?, Scanner.start,
    Scanner.run_spaces h]

/-- Blanks in front of an object refuse it unless all of them are blanks of JSON. -/
theorem parse?_foreignBlank {blanks : List Char} (hblank : ∀ c ∈ blanks, Text.isBlankChar c = true)
    (hspace : ¬ ∀ c ∈ blanks, Token.isSpace c = true) (rest : List Char) :
    parse? (String.ofList (blanks ++ '{' :: rest)) = none := by
  have hrun : Scanner.start.run (blanks ++ '{' :: rest) = none := by
    rw [Scanner.start]
    induction blanks with
    | nil => simp at hspace
    | cons c blanks ih =>
      rw [List.forall_mem_cons] at hblank hspace
      rw [List.cons_append]
      by_cases hc : Token.isSpace c = true
      · rw [Scanner.run, Scanner.step, Scanner.stepBetween, if_pos hc]
        exact ih hblank.2 fun hall => hspace ⟨hc, hall⟩
      · exact Scanner.run_foreignBlank hblank.1 (Bool.not_eq_true _ ▸ hc)
          ⟨'{', by simp, by decide⟩ []
  rw [parse?, String.toList_ofList, tokens?, hrun]
  rfl

/-- No second value is read behind a complete one. -/
theorem parse?_append_object {cs : List Char} {value : Raw}
    (h : parse? (String.ofList cs) = some value) (rest : List Char) :
    parse? (String.ofList (cs ++ '{' :: rest)) = none := by
  rw [parse?, String.toList_ofList] at h
  obtain ⟨ts, hts, hvalue⟩ := Option.bind_eq_some_iff.1 h
  rw [parse?, String.toList_ofList, tokens?_append_object hts]
  cases tokens? rest with
  | none => rfl
  | some us => exact ofTokens?_append_cons hvalue .openObject us

/-! ## Control characters -/

/-- An escaped text has no control characters. -/
theorem le_of_mem_escape {cs : List Char} {c : Char} (h : c ∈ escape cs) : 0x20 ≤ c.toNat := by
  have hall : ∀ xs : List Char, (∀ x ∈ xs, 0x20 ≤ x.toNat) → c ∈ xs → 0x20 ≤ c.toNat :=
    fun _ hxs hc => hxs c hc
  have hhex : ∀ n < 16, 0x20 ≤ (hexDigit n).toNat := by decide
  obtain ⟨d, -, hc⟩ := List.mem_flatMap.1 h
  unfold escapeChar at hc
  split_ifs at hc with _ _ _ _ _ _ _ hcontrol
  · exact hall _ (by simp) hc
  · exact hall _ (by simp) hc
  · exact hall _ (by simp) hc
  · exact hall _ (by simp) hc
  · exact hall _ (by simp) hc
  · exact hall _ (by simp) hc
  · exact hall _ (by simp) hc
  · refine hall _ ?_ hc
    simp only [List.forall_mem_cons]
    exact ⟨by decide, by decide, by decide, by decide, hhex _ (by omega), hhex _ (by omega),
      by simp⟩
  · rw [List.mem_singleton.1 hc]
    omega

theorem le_of_mem_quoted {spelling : List Char} (h : ∃ cs, spelling = escape cs) {c : Char}
    (hc : c ∈ quoted spelling) : 0x20 ≤ c.toNat := by
  obtain ⟨cs, rfl⟩ := h
  simp only [quoted, List.cons_append, List.mem_cons, List.mem_append, List.not_mem_nil,
    or_false] at hc
  rcases hc with rfl | hc | rfl
  · decide
  · exact le_of_mem_escape hc
  · decide

mutual

/-- The compact text of a tree holds no control characters. -/
theorem le_of_mem_compact : ∀ {r : Raw}, r.WellSpelled → ∀ c ∈ r.compact, 0x20 ≤ c.toNat
  | .null, _ => by
    simp [compact]
  | .bool true, _ => by
    simp [compact, boolText]
  | .bool false, _ => by
    simp [compact, boolText]
  | .number spelling, h => by
    intro c hc
    rw [compact] at hc
    exact (Scanner.toNat_of_isNumberChar (isNumberChar_of_isNumber h c hc)).1.le
  | .string spelling, h => by
    intro c hc
    rw [compact] at hc
    exact le_of_mem_quoted h hc
  | .array items, h => by
    have hitems := le_of_mem_compactItems h
    simp only [compact, List.cons_append, List.forall_mem_cons, List.forall_mem_append]
    exact ⟨by decide, hitems, by decide, by simp⟩
  | .object members, h => by
    have hmembers := le_of_mem_compactMembers h
    simp only [compact, List.cons_append, List.forall_mem_cons, List.forall_mem_append]
    exact ⟨by decide, hmembers, by decide, by simp⟩

/-- The compact text of items has no control characters. -/
theorem le_of_mem_compactItems : ∀ {items : List Raw}, ItemsWellSpelled items →
    ∀ c ∈ compactItems items, 0x20 ≤ c.toNat
  | [], _ => by simp [compactItems]
  | [item], h => le_of_mem_compact h.1
  | item :: next :: items, h => by
    rw [ItemsWellSpelled] at h
    have hitem := le_of_mem_compact h.1
    have hitems := le_of_mem_compactItems h.2
    simp only [compactItems_cons_cons, List.forall_mem_cons, List.forall_mem_append]
    exact ⟨hitem, by decide, hitems⟩

/-- The compact text of members has no control characters. -/
theorem le_of_mem_compactMembers : ∀ {members : List (List Char × Raw)},
    MembersWellSpelled members → ∀ c ∈ compactMembers members, 0x20 ≤ c.toNat
  | [], _ => by simp [compactMembers]
  | [(key, value)], h => by
    rw [MembersWellSpelled] at h
    have hvalue := le_of_mem_compact h.2.1
    simp only [compactMembers, List.forall_mem_cons, List.forall_mem_append]
    exact ⟨fun c hc => le_of_mem_quoted h.1 hc, by decide, hvalue⟩
  | (key, value) :: next :: members, h => by
    rw [MembersWellSpelled] at h
    have hvalue := le_of_mem_compact h.2.1
    have hmembers := le_of_mem_compactMembers h.2.2
    simp only [compactMembers_cons_cons, List.forall_mem_cons, List.forall_mem_append]
    exact ⟨⟨fun c hc => le_of_mem_quoted h.1 hc, by decide, hvalue⟩, by decide, hmembers⟩

end

end Raw

end LeadScoring.Json
