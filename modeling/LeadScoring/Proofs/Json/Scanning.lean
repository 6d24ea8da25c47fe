import LeadScoring.Proofs.Json.Spelling

/-!
# Scanning compact texts

The scanner cuts the compact text of a tree of literals into the tokens of that tree.  Brackets,
separators and quoted strings end by themselves; a keyword or a number ends at the next separator,
so the theorems below carry the character that follows.

Main results:

- Definitions `Raw.WellSpelled` and `Raw.tokens`: trees with valid literals, and their tokens.
- Theorems `Scanner.run_string`, `Scanner.run_word`: one literal.
- Theorem `Scanner.run_compact`: a whole tree, with a separator behind it.
- Theorem `tokens?_compact`: the tokens of a compact text.
-/

namespace LeadScoring.Json

namespace Raw

mutual

/-- All numbers of a tree are number literals, and all its strings are spelled by escapes. -/
def WellSpelled : Raw → Prop
  | .null => True
  | .bool _ => True
  | .number spelling => isNumber spelling = true
  | .string spelling => ∃ cs, spelling = escape cs
  | .array items => ItemsWellSpelled items
  | .object members => MembersWellSpelled members

/-- The same for the items of an array. -/
def ItemsWellSpelled : List Raw → Prop
  | [] => True
  | item :: items => item.WellSpelled ∧ ItemsWellSpelled items

/-- The same for the members of an object with their keys. -/
def MembersWellSpelled : List (List Char × Raw) → Prop
  | [] => True
  | (key, value) :: members =>
    (∃ cs, key = escape cs) ∧ value.WellSpelled ∧ MembersWellSpelled members

end

mutual

/-- The tokens of a tree. -/
def tokens : Raw → List Token
  | .null => [.null]
  | .bool b => [.bool b]
  | .number spelling => [.number spelling]
  | .string spelling => [.string spelling]
  | .array items => .openArray :: itemTokens items ++ [.closeArray]
  | .object members => .openObject :: memberTokens members ++ [.closeObject]

/-- The tokens of array items with commas between them. -/
def itemTokens : List Raw → List Token
  | [] => []
  | [item] => tokens item
  | item :: items => tokens item ++ .comma :: itemTokens items

/-- The tokens of object members with commas between them. -/
def memberTokens : List (List Char × Raw) → List Token
  | [] => []
  | [(key, value)] => .string key :: .colon :: tokens value
  | (key, value) :: members =>
    .string key :: .colon :: tokens value ++ .comma :: memberTokens members

end

theorem itemTokens_cons_cons (item next : Raw) (items : List Raw) :
    itemTokens (item :: next :: items) =
      item.tokens ++ .comma :: itemTokens (next :: items) :=
  rfl

theorem memberTokens_cons_cons (key : List Char) (value : Raw) (next : List Char × Raw)
    (members : List (List Char × Raw)) :
    memberTokens ((key, value) :: next :: members) =
      .string key :: .colon :: value.tokens ++ .comma :: memberTokens (next :: members) :=
  rfl

theorem compactItems_cons_cons (item next : Raw) (items : List Raw) :
    compactItems (item :: next :: items) = item.compact ++ ',' :: compactItems (next :: items) :=
  rfl

theorem compactMembers_cons_cons (key : List Char) (value : Raw) (next : List Char × Raw)
    (members : List (List Char × Raw)) :
    compactMembers ((key, value) :: next :: members) =
      quoted key ++ ':' :: value.compact ++ ',' :: compactMembers (next :: members) :=
  rfl

end Raw

namespace Scanner

/-! ## Strings -/

/-- An escaped character keeps the scanner inside the string. -/
theorem run_escapeChar (ts : List Token) (letters : List Char) (c : Char) (rest : List Char) :
    run ⟨ts, .string letters⟩ (escapeChar c ++ rest) =
      run ⟨ts, .string ((escapeChar c).reverse ++ letters)⟩ rest := by
  unfold escapeChar
  split_ifs with h1 h2 h3 h4 h5 h6 h7 h8
  · rfl
  · rfl
  · rfl
  · rfl
  · rfl
  · rfl
  · rfl
  · have hhigh := hexValue?_hexDigit (c.toNat / 16) (by omega)
    have hlow := hexValue?_hexDigit (c.toNat % 16) (by omega)
    have hzero : hexValue? '0' = some 0 := by decide
    simp [run, step, hhigh, hlow, hzero]
  · simp [run, step, h1, h2, h8]

/-- Inside of a string the automaton collects the escaped characters. -/
theorem run_escape (ts : List Token) (letters cs rest : List Char) :
    run ⟨ts, .string letters⟩ (escape cs ++ rest) =
      run ⟨ts, .string ((escape cs).reverse ++ letters)⟩ rest := by
  induction cs generalizing letters with
  | nil => rfl
  | cons c cs ih =>
    have hcons : escape (c :: cs) = escapeChar c ++ escape cs := rfl
    rw [hcons, List.append_assoc, run_escapeChar, ih, List.reverse_append, List.append_assoc]

/-- A quoted string is one token. -/
theorem run_string (ts : List Token) (cs rest : List Char) :
    run ⟨ts, .between⟩ (Raw.quoted (escape cs) ++ rest) =
      run ⟨.string (escape cs) :: ts, .between⟩ rest := by
  have hopen : run ⟨ts, .between⟩ (Raw.quoted (escape cs) ++ rest) =
      run ⟨ts, .string []⟩ (escape cs ++ '"' :: rest) := by
    rw [Raw.quoted, List.cons_append, List.cons_append, List.append_assoc]
    rfl
  rw [hopen, run_escape]
  simp [run, step]

/-! ## Words -/

/-- The characters that end a word. -/
theorem mem_of_endsWord {c : Char} (h : endsWord c = true) :
    c ∈ [' ', '\t', '\n', '\r', '"', '[', ']', '{', '}', ',', ':'] := by
  unfold endsWord Token.isSpace Token.ofMark? at h
  simp only [List.mem_cons, List.not_mem_nil, or_false]
  split_ifs at h with h1 h2 h3 h4 h5 h6 <;> simp_all [or_assoc]

/-- No character of a number ends it. -/
theorem endsWord_of_isNumberChar {c : Char} (h : isNumberChar c = true) : endsWord c = false := by
  have hnone : [' ', '\t', '\n', '\r', '"', '[', ']', '{', '}', ',', ':'].any isNumberChar =
      false := by
    decide
  by_contra hends
  exact List.any_eq_false.1 hnone c (mem_of_endsWord (by simpa using hends)) h

/-- Inside a word the scanner waits for a character that ends it. -/
theorem run_letters {ts : List Token} {d : Char} {t : Token} (hd : endsWord d = true)
    (rest : List Char) :
    ∀ {cs letters : List Char}, (∀ c ∈ cs, endsWord c = false) →
      Token.ofWord? (letters.reverse ++ cs) = some t →
        run ⟨ts, .word letters⟩ (cs ++ d :: rest) = run ⟨t :: ts, .between⟩ (d :: rest) := by
  intro cs
  induction cs with
  | nil =>
    intro letters _ hword
    rw [List.append_nil] at hword
    simp [run, step, hd, hword]
  | cons c cs ih =>
    intro letters hletters hword
    have hc := hletters c List.mem_cons_self
    have hsameWord : Token.ofWord? ((c :: letters).reverse ++ cs) = some t := by
      simpa using hword
    have hrest := ih (fun other hother => hletters other (List.mem_cons_of_mem c hother)) hsameWord
    simpa [run, step, hc] using hrest

/-- A word with a separator behind it is one token. -/
theorem run_word {ts : List Token} {d : Char} {t : Token} {word : List Char}
    (hletters : word.any endsWord = false) (hword : Token.ofWord? word = some t)
    (hnonempty : word ≠ []) (hd : endsWord d = true) (rest : List Char) :
    run ⟨ts, .between⟩ (word ++ d :: rest) = run ⟨t :: ts, .between⟩ (d :: rest) := by
  obtain ⟨c, cs, rfl⟩ := List.exists_cons_of_ne_nil hnonempty
  rw [List.any_cons, Bool.or_eq_false_iff] at hletters
  obtain ⟨hc, hcs⟩ := hletters
  simp only [endsWord, Bool.or_eq_false_iff, beq_eq_false_iff_ne] at hc
  obtain ⟨⟨hspace, hquote⟩, hmark⟩ := hc
  rw [Option.isSome_eq_false_iff, Option.isNone_iff_eq_none] at hmark
  have hrest : run ⟨ts, .word [c]⟩ (cs ++ d :: rest) = run ⟨t :: ts, .between⟩ (d :: rest) :=
    run_letters hd rest (by simpa using hcs) hword
  simpa [run, step, stepBetween, hspace, hquote, hmark] using hrest

/-- A number with a separator behind it is one token. -/
theorem run_number {ts : List Token} {d : Char} {spelling : List Char}
    (h : isNumber spelling = true) (hd : endsWord d = true) (rest : List Char) :
    run ⟨ts, .between⟩ (spelling ++ d :: rest) =
      run ⟨.number spelling :: ts, .between⟩ (d :: rest) := by
  have hkeyword : ∀ word : List Char, isNumber word = false → spelling ≠ word := by
    rintro word hword rfl
    rw [hword] at h
    cases h
  refine run_word ?_ ?_ (ne_nil_of_isNumber h) hd rest
  · rw [List.any_eq_false]
    intro c hc
    simp [endsWord_of_isNumberChar (isNumberChar_of_isNumber h c hc)]
  · rw [Token.ofWord?, if_neg (hkeyword _ (by decide)), if_neg (hkeyword _ (by decide)),
      if_neg (hkeyword _ (by decide)), if_pos h]

/-! ## Trees -/

mutual

/-- A tree with a separator behind it is cut into its tokens. -/
theorem run_compact {d : Char} (hd : endsWord d = true) :
    ∀ {r : Raw}, r.WellSpelled → ∀ (ts : List Token) (rest : List Char),
      run ⟨ts, .between⟩ (r.compact ++ d :: rest) =
        run ⟨r.tokens.reverse ++ ts, .between⟩ (d :: rest)
  | .null, _, _, rest => by
    rw [Raw.compact, Raw.tokens]
    exact run_word (by decide) (by decide) (by decide) hd rest
  | .bool true, _, _, rest => by
    rw [Raw.compact, Raw.tokens]
    exact run_word (by decide) (by decide) (by decide) hd rest
  | .bool false, _, _, rest => by
    rw [Raw.compact, Raw.tokens]
    exact run_word (by decide) (by decide) (by decide) hd rest
  | .number spelling, h, _, rest => by
    rw [Raw.WellSpelled] at h
    rw [Raw.compact, Raw.tokens]
    exact run_number h hd rest
  | .string spelling, h, ts, rest => by
    rw [Raw.WellSpelled] at h
    obtain ⟨cs, rfl⟩ := h
    rw [Raw.compact, Raw.tokens]
    exact run_string ts cs (d :: rest)
  | .array items, h, ts, rest => by
    rw [Raw.WellSpelled] at h
    have hitems := run_compactItems (d := ']') (by decide) h (.openArray :: ts) (d :: rest)
    have hopen : run ⟨ts, .between⟩ ((Raw.array items).compact ++ d :: rest) =
        run ⟨.openArray :: ts, .between⟩ (Raw.compactItems items ++ ']' :: d :: rest) := by
      rw [Raw.compact, List.cons_append, List.cons_append, List.append_assoc]
      rfl
    rw [hopen, hitems, Raw.tokens]
    simp [run, step, stepBetween, Token.isSpace, Token.ofMark?]
  | .object members, h, ts, rest => by
    rw [Raw.WellSpelled] at h
    have hmembers := run_compactMembers (d := '}') (by decide) h (.openObject :: ts) (d :: rest)
    have hopen : run ⟨ts, .between⟩ ((Raw.object members).compact ++ d :: rest) =
        run ⟨.openObject :: ts, .between⟩ (Raw.compactMembers members ++ '}' :: d :: rest) := by
      rw [Raw.compact, List.cons_append, List.cons_append, List.append_assoc]
      rfl
    rw [hopen, hmembers, Raw.tokens]
    simp [run, step, stepBetween, Token.isSpace, Token.ofMark?]

/-- The automaton reads the compact text of items as their tokens. -/
theorem run_compactItems {d : Char} (hd : endsWord d = true) :
    ∀ {items : List Raw}, Raw.ItemsWellSpelled items → ∀ (ts : List Token) (rest : List Char),
      run ⟨ts, .between⟩ (Raw.compactItems items ++ d :: rest) =
        run ⟨(Raw.itemTokens items).reverse ++ ts, .between⟩ (d :: rest)
  | [], _, _, _ => rfl
  | [item], h, ts, rest => by
    rw [Raw.ItemsWellSpelled] at h
    exact run_compact hd h.1 ts rest
  | item :: next :: items, h, ts, rest => by
    rw [Raw.ItemsWellSpelled] at h
    have hitem := run_compact (d := ',') (by decide) h.1 ts
      (Raw.compactItems (next :: items) ++ d :: rest)
    have hcomma : ∀ others : List Token,
        run ⟨others, .between⟩ (',' :: (Raw.compactItems (next :: items) ++ d :: rest)) =
          run ⟨.comma :: others, .between⟩ (Raw.compactItems (next :: items) ++ d :: rest) :=
      fun _ => rfl
    rw [Raw.compactItems_cons_cons, List.append_assoc, List.cons_append, hitem, hcomma,
      run_compactItems hd h.2, Raw.itemTokens_cons_cons]
    simp

/-- The automaton reads the compact text of members as their tokens. -/
theorem run_compactMembers {d : Char} (hd : endsWord d = true) :
    ∀ {members : List (List Char × Raw)}, Raw.MembersWellSpelled members →
      ∀ (ts : List Token) (rest : List Char),
        run ⟨ts, .between⟩ (Raw.compactMembers members ++ d :: rest) =
          run ⟨(Raw.memberTokens members).reverse ++ ts, .between⟩ (d :: rest)
  | [], _, _, _ => rfl
  | [(key, value)], h, ts, rest => by
    rw [Raw.MembersWellSpelled] at h
    obtain ⟨⟨cs, rfl⟩, hvalue, -⟩ := h
    have hcolon : ∀ (others : List Token) (text : List Char),
        run ⟨others, .between⟩ (':' :: text) = run ⟨.colon :: others, .between⟩ text :=
      fun _ _ => rfl
    rw [Raw.compactMembers, List.append_assoc, List.cons_append, run_string, hcolon,
      run_compact hd hvalue, Raw.memberTokens]
    simp
  | (key, value) :: next :: members, h, ts, rest => by
    rw [Raw.MembersWellSpelled] at h
    obtain ⟨⟨cs, rfl⟩, hvalue, hmembers⟩ := h
    have hcolon : ∀ (others : List Token) (text : List Char),
        run ⟨others, .between⟩ (':' :: text) = run ⟨.colon :: others, .between⟩ text :=
      fun _ _ => rfl
    have hcomma : ∀ (others : List Token) (text : List Char),
        run ⟨others, .between⟩ (',' :: text) = run ⟨.comma :: others, .between⟩ text :=
      fun _ _ => rfl
    rw [Raw.compactMembers_cons_cons, List.append_assoc, List.append_assoc, List.cons_append,
      run_string, hcolon, List.cons_append, run_compact (d := ',') (by decide) hvalue, hcomma,
      run_compactMembers hd hmembers, Raw.memberTokens_cons_cons]
    simp

end

/-- A blank behind the text changes nothing: it ends an open word and refuses whatever else is
open. -/
theorem finish_step_blank (s : Scanner) : (s.step ' ').bind finish = s.finish := by
  obtain ⟨ts, state⟩ := s
  cases state with
  | between => rfl
  | word letters =>
    have hends : endsWord ' ' = true := by decide
    simp only [step, hends, if_true, finish]
    cases Token.ofWord? letters.reverse <;> rfl
  | string letters => rfl
  | escape letters => rfl
  | hex letters left => rfl

/-- A blank at the end of a text changes nothing. -/
theorem bind_finish_append_blank (s : Scanner) (cs : List Char) :
    (s.run (cs ++ [' '])).bind finish = (s.run cs).bind finish := by
  induction cs generalizing s with
  | nil =>
    rw [← show (s.step ' ').bind finish = (s.run []).bind finish from finish_step_blank s,
      List.nil_append, run]
    cases s.step ' ' <;> rfl
  | cons c cs ih =>
    rw [List.cons_append, run, run]
    cases s.step c with
    | none => rfl
    | some s => exact ih s

end Scanner

/-- The compact text of a tree is cut into the tokens of that tree. -/
theorem tokens?_compact {r : Raw} (h : r.WellSpelled) : tokens? r.compact = some r.tokens := by
  rw [tokens?, ← Scanner.bind_finish_append_blank, Scanner.start,
    Scanner.run_compact (d := ' ') (by decide) h]
  simp [Scanner.run, Scanner.step, Scanner.stepBetween, Token.isSpace, Scanner.finish]

end LeadScoring.Json
