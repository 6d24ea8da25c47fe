import LeadScoring.Proofs.Json.Scanning

/-!
# Reading compact texts

The reader builds the tree of literals from its tokens: whatever containers are open, the tokens of
a value hand exactly that value to the innermost one.  With the scanner this makes compact texts
read back.

Main results:

- Theorem `Reader.run_tokens`: the tokens of a value deliver it.
- Theorem `Raw.parse?_compact`: the compact text of a tree reads back as that tree.
-/

namespace LeadScoring.Json

namespace Reader

/-! ## Where a value or a key begins -/

/-- The reader goes on behind a delivered value. -/
def resume (r : Option Reader) (ts : List Token) : Option Reader :=
  r.bind fun r => r.run ts

theorem run_cons (r : Reader) (t : Token) (ts : List Token) :
    run r (t :: ts) = resume (r.step t) ts := by
  rw [run]
  cases r.step t <;> rfl

/-- No value begins with the end of an array, so it may stand where either is expected. -/
theorem run_valueOrEnd (r : Raw) (frames : List Frame) (rest : List Token) :
    run ⟨frames, .valueOrEnd⟩ (r.tokens ++ rest) = run ⟨frames, .value⟩ (r.tokens ++ rest) := by
  cases r <;> rw [Raw.tokens] <;> rfl

/-- An array that has items goes on with the first one. -/
theorem run_itemsOrEnd {items : List Raw} (h : items ≠ []) (frames : List Frame)
    (rest : List Token) :
    run ⟨frames, .valueOrEnd⟩ (Raw.itemTokens items ++ rest) =
      run ⟨frames, .value⟩ (Raw.itemTokens items ++ rest) := by
  match items, h with
  | [item], _ => exact run_valueOrEnd item frames rest
  | item :: next :: items, _ =>
    rw [Raw.itemTokens_cons_cons, List.append_assoc]
    exact run_valueOrEnd item frames _

/-- An object that has members goes on with the first key. -/
theorem run_membersOrEnd {members : List (List Char × Raw)} (h : members ≠ [])
    (frames : List Frame) (rest : List Token) :
    run ⟨frames, .keyOrEnd⟩ (Raw.memberTokens members ++ rest) =
      run ⟨frames, .key⟩ (Raw.memberTokens members ++ rest) := by
  match members, h with
  | [(key, value)], _ => rfl
  | (key, value) :: next :: members, _ => rfl

/-- A key opens a member of the innermost object. -/
theorem run_key (key : List Char) (done : List (List Char × Raw)) (frames : List Frame)
    (ts : List Token) :
    run ⟨.object done :: frames, .key⟩ (.string key :: .colon :: ts) =
      run ⟨.member done key :: frames, .value⟩ ts :=
  rfl

/-! ## Values -/

mutual

/-- The tokens of a value deliver it to the innermost container. -/
theorem run_tokens : ∀ (r : Raw) (frames : List Frame) (rest : List Token),
    run ⟨frames, .value⟩ (r.tokens ++ rest) = resume (deliver r frames) rest
  | .null, _, _ => run_cons _ _ _
  | .bool _, _, _ => run_cons _ _ _
  | .number _, _, _ => run_cons _ _ _
  | .string _, _, _ => run_cons _ _ _
  | .array items, frames, rest => by
    have hopen : run ⟨frames, .value⟩ ((Raw.array items).tokens ++ rest) =
        run ⟨.array [] :: frames, .valueOrEnd⟩ (Raw.itemTokens items ++ .closeArray :: rest) := by
      rw [Raw.tokens, List.cons_append, List.cons_append, List.append_assoc]
      rfl
    rw [hopen]
    by_cases hempty : items = []
    · rw [hempty]
      exact run_cons _ _ _
    · rw [run_itemsOrEnd hempty, run_itemTokens items hempty, run_cons, List.append_nil]
      change resume (deliver (.array items.reverse.reverse) frames) rest = _
      rw [List.reverse_reverse]
  | .object members, frames, rest => by
    have hopen : run ⟨frames, .value⟩ ((Raw.object members).tokens ++ rest) =
        run ⟨.object [] :: frames, .keyOrEnd⟩
          (Raw.memberTokens members ++ .closeObject :: rest) := by
      rw [Raw.tokens, List.cons_append, List.cons_append, List.append_assoc]
      rfl
    rw [hopen]
    by_cases hempty : members = []
    · rw [hempty]
      exact run_cons _ _ _
    · rw [run_membersOrEnd hempty, run_memberTokens members hempty, run_cons, List.append_nil]
      change resume (deliver (.object members.reverse.reverse) frames) rest = _
      rw [List.reverse_reverse]

/-- The tokens of items fill the innermost array. -/
theorem run_itemTokens : ∀ (items : List Raw), items ≠ [] →
    ∀ (done : List Raw) (frames : List Frame) (rest : List Token),
      run ⟨.array done :: frames, .value⟩ (Raw.itemTokens items ++ rest) =
        run ⟨.array (items.reverse ++ done) :: frames, .commaOrEnd⟩ rest
  | [item], _, done, frames, rest => run_tokens item (.array done :: frames) rest
  | item :: next :: items, _, done, frames, rest => by
    have hitem := run_tokens item (.array done :: frames)
      (.comma :: Raw.itemTokens (next :: items) ++ rest)
    have hcomma : resume (deliver item (.array done :: frames))
          (.comma :: Raw.itemTokens (next :: items) ++ rest) =
        run ⟨.array (item :: done) :: frames, .value⟩ (Raw.itemTokens (next :: items) ++ rest) :=
      rfl
    rw [Raw.itemTokens_cons_cons, List.append_assoc, hitem, hcomma,
      run_itemTokens (next :: items) (List.cons_ne_nil next items)]
    simp

/-- The tokens of members fill the innermost object. -/
theorem run_memberTokens : ∀ (members : List (List Char × Raw)), members ≠ [] →
    ∀ (done : List (List Char × Raw)) (frames : List Frame) (rest : List Token),
      run ⟨.object done :: frames, .key⟩ (Raw.memberTokens members ++ rest) =
        run ⟨.object (members.reverse ++ done) :: frames, .commaOrEnd⟩ rest
  | [(key, value)], _, done, frames, rest => by
    have hvalue := run_tokens value (.member done key :: frames) rest
    rw [Raw.memberTokens, List.cons_append, List.cons_append, run_key, hvalue]
    rfl
  | (key, value) :: next :: members, _, done, frames, rest => by
    have hvalue := run_tokens value (.member done key :: frames)
      (.comma :: Raw.memberTokens (next :: members) ++ rest)
    have hcomma : resume (deliver value (.member done key :: frames))
          (.comma :: Raw.memberTokens (next :: members) ++ rest) =
        run ⟨.object ((key, value) :: done) :: frames, .key⟩
          (Raw.memberTokens (next :: members) ++ rest) :=
      rfl
    rw [Raw.memberTokens_cons_cons, List.cons_append, List.cons_append, List.cons_append,
      List.cons_append, List.append_assoc, run_key, hvalue, hcomma,
      run_memberTokens (next :: members) (List.cons_ne_nil next members)]
    simp

end

end Reader

namespace Raw

/-- The tokens of a tree denote that tree. -/
theorem ofTokens?_tokens (r : Raw) : ofTokens? r.tokens = some r := by
  have hrun := Reader.run_tokens r [] []
  rw [List.append_nil] at hrun
  rw [ofTokens?, Reader.start, hrun]
  rfl

/-- Compact texts read back: the text of a tree is the text of no other one. -/
theorem parse?_compact {r : Raw} (h : r.WellSpelled) :
    parse? (String.ofList r.compact) = some r := by
  rw [parse?, String.toList_ofList, tokens?_compact h, Option.bind_some, ofTokens?_tokens]

end Raw

end LeadScoring.Json
