import LeadScoring.Proofs.Json.Accepted
import LeadScoring.Proofs.Json.Neighbours
import LeadScoring.Feedback

/-!
# Lines of a feedback file

A file is read line by line.  Text behind the last line feed is a line of its own, and whatever is
written next to the file continues it.  So a record that is appended can be read exactly if nothing
but blanks of JSON stands there, and even then only if its payload leaves room for the level that
the record adds.

Main results:

- Definition `FeedbackRecord.lastLine`: the text behind the last line feed.
- Theorem `FeedbackRecord.splitLines_append`: complete lines are not touched by what follows.
- Theorem `FeedbackRecord.exists_text_of_readAll`: whatever can be read is the bytes of a text.
- Theorem `FeedbackRecord.Recordable.parse?_append`: which records are read behind an open line.
- Theorem `FeedbackRecord.Recordable.readAll_append_line`: what is read from a file behind which a
  record has been written.
-/

namespace LeadScoring.FeedbackRecord

open Json (Raw Accepted Token)

/-! ## Bytes of lines -/

/-- The bytes of a text are decoded as this text. -/
theorem decodeLine?_bytes (s : String) : decodeLine? (Text.bytes s) = some s := by
  have hbytes : ByteArray.mk (Text.bytes s).toArray = s.toByteArray := by
    rw [Text.bytes, Array.toArray_toList, String.toUTF8_eq_toByteArray]
  rw [decodeLine?, hbytes, String.fromUTF8?, dif_pos s.isValidUTF8]
  rfl

/-- The bytes of some characters are decoded as these. -/
theorem decodeLine?_bytesOf (cs : List Char) :
    decodeLine? (Text.bytesOf cs) = some (String.ofList cs) := by
  rw [← Text.bytes_ofList, decodeLine?_bytes]

theorem splitLines_cons_of_ne {b : UInt8} (h : b ≠ 10) (begun rest : List UInt8) :
    splitLines begun (b :: rest) = splitLines (b :: begun) rest := by
  change (if b = 10 then _ else splitLines (b :: begun) rest) = _
  exact if_neg h

/-- A line feed closes the line that has begun. -/
theorem splitLines_close {begun : List UInt8} (h : ∀ others, begun ≠ 13 :: others)
    (rest : List UInt8) :
    splitLines begun (10 :: rest) = begun.reverse :: splitLines [] rest := by
  rw [splitLines.eq_3 _ _ _ fun others heq => h others heq]
  exact if_pos rfl

/-- The next line begins behind a line feed. -/
theorem splitLines_lineFeed (begun xs ys : List UInt8) :
    splitLines begun (xs ++ 10 :: ys) = splitLines begun (xs ++ [10]) ++ splitLines [] ys := by
  induction xs generalizing begun with
  | nil => rfl
  | cons x xs ih =>
    rw [List.cons_append, List.cons_append]
    by_cases hx : x = 10
    · subst hx
      exact congrArg (List.cons _) (ih [])
    · rw [splitLines_cons_of_ne hx, splitLines_cons_of_ne hx, ih]

/-- Bytes that end with a line feed, or no bytes at all. -/
def Closed (bytes : List UInt8) : Prop :=
  bytes = [] ∨ ∃ front, bytes = front ++ [10]

/-- Complete lines are not touched by what follows. -/
theorem splitLines_append {front : List UInt8} (h : Closed front) (rest : List UInt8) :
    splitLines [] (front ++ rest) = splitLines [] front ++ splitLines [] rest := by
  rcases h with rfl | ⟨front, rfl⟩
  · rfl
  · rw [List.append_assoc]
    exact splitLines_lineFeed [] front rest

/-- Bytes without a line feed stay in the line that has begun. -/
theorem splitLines_of_notMem {line : List UInt8} (h : 10 ∉ line) (begun rest : List UInt8) :
    splitLines begun (line ++ rest) = splitLines (line.reverse ++ begun) rest := by
  induction line generalizing begun with
  | nil => rfl
  | cons b line ih =>
    rw [List.mem_cons, not_or] at h
    rw [List.cons_append, splitLines_cons_of_ne (Ne.symm h.1), ih h.2, List.reverse_cons,
      List.append_assoc]
    rfl

/-- The line behind the last line feed, if there is one. -/
theorem splitLines_open {line : List UInt8} (h : 10 ∉ line) :
    splitLines [] line = if line = [] then [] else [line] := by
  have hsplit := splitLines_of_notMem h [] []
  rw [List.append_nil, List.append_nil] at hsplit
  rw [hsplit, splitLines]
  by_cases hline : line = [] <;> simp [hline]

/-- A line that is closed by a line feed alone. -/
theorem splitLines_closed {line : List UInt8} {last : UInt8} (h : 10 ∉ line ++ [last])
    (hlast : last ≠ 13) : splitLines [] (line ++ [last] ++ [10]) = [line ++ [last]] := by
  have hopen : ∀ others, last :: line.reverse ≠ 13 :: others :=
    fun others heq => hlast (List.cons.inj heq).1
  rw [splitLines_of_notMem h, List.append_nil, List.reverse_append, List.reverse_singleton,
    List.singleton_append, splitLines_close hopen, List.reverse_cons, List.reverse_reverse]
  rfl

/-! ## Records of lines -/

/-- Lines are read one after the other. -/
theorem readLines_append (lines others : List (List UInt8)) :
    readLines (lines ++ others) =
      readLines lines >>= fun records => (readLines others).map (records ++ ·) := by
  induction lines with
  | nil =>
    change readLines others = (readLines others).map ([] ++ ·)
    cases readLines others <;> rfl
  | cons line lines ih =>
    rw [List.cons_append, readLines, readLines, ih]
    cases decodeLine? line with
    | none => rfl
    | some text =>
      dsimp only
      split_ifs
      · rfl
      · cases parse? text with
        | none => rfl
        | some record =>
          cases readLines lines with
          | error e => rfl
          | ok rest =>
            cases readLines others <;> rfl

/-- The records of one line. -/
theorem readLines_singleton (cs : List Char) :
    readLines [Text.bytesOf cs] =
      if cs.all Text.isBlankChar = true then .ok []
      else
        match parse? (String.ofList cs) with
        | some record => .ok [record]
        | none => .error .malformedRecord := by
  rw [readLines, decodeLine?_bytesOf]
  dsimp only
  rw [Text.isBlank, String.toList_ofList, readLines]
  cases parse? (String.ofList cs) <;> rfl

/-! ## Files that can be read are texts -/

/-- A line that is decoded consists of the bytes of the text. -/
theorem exists_text_of_decodeLine? {line : List UInt8} {s : String}
    (h : decodeLine? line = some s) : Text.bytes s = line := by
  unfold decodeLine? String.fromUTF8? at h
  split_ifs at h with hvalid
  cases h
  rfl

/-- Lines that are read as records are texts. -/
theorem exists_texts_of_readLines {lines : List (List UInt8)} {records : List FeedbackRecord}
    (h : readLines lines = .ok records) : ∀ line ∈ lines, ∃ s, line = Text.bytes s := by
  induction lines generalizing records with
  | nil => simp
  | cons line lines ih =>
    have hsplit : readLines ([line] ++ lines) = .ok records := h
    rw [readLines_append, Outcome.bind_eq_ok_iff] at hsplit
    obtain ⟨first, hfirst, hrest⟩ := hsplit
    obtain ⟨second, hsecond, -⟩ := Outcome.map_eq_ok_iff.1 hrest
    refine List.forall_mem_cons.2 ⟨?_, ih hsecond⟩
    rw [readLines] at hfirst
    cases hdecoded : decodeLine? line with
    | none => rw [hdecoded] at hfirst; cases hfirst
    | some s => exact ⟨s, (exists_text_of_decodeLine? hdecoded).symm⟩

/-- Bytes whose lines are texts are the bytes of a text. -/
theorem exists_text_of_splitLines {begun rest : List UInt8}
    (h : ∀ line ∈ splitLines begun rest, ∃ s, line = Text.bytes s) :
    ∃ s, begun.reverse ++ rest = Text.bytes s := by
  induction rest generalizing begun with
  | nil =>
    by_cases hbegun : begun = []
    · subst hbegun
      exact ⟨"", rfl⟩
    · rw [splitLines, if_neg (by simpa using hbegun)] at h
      obtain ⟨s, hs⟩ := h _ List.mem_cons_self
      exact ⟨s, by rw [List.append_nil, hs]⟩
  | cons b rest ih =>
    by_cases hb : b = 10
    · subst hb
      have hclose : ∃ line, splitLines begun (10 :: rest) = line :: splitLines [] rest ∧
          (begun.reverse = line ∨ begun.reverse = line ++ [13]) := by
        by_cases hreturn : ∃ others, begun = 13 :: others
        · obtain ⟨others, rfl⟩ := hreturn
          exact ⟨others.reverse, rfl, Or.inr List.reverse_cons⟩
        · exact ⟨begun.reverse, splitLines_close (not_exists.1 hreturn) rest, Or.inl rfl⟩
      obtain ⟨line, hlines, hline⟩ := hclose
      rw [hlines, List.forall_mem_cons] at h
      obtain ⟨s, hs⟩ := h.1
      obtain ⟨t, ht⟩ := ih h.2
      rw [List.reverse_nil, List.nil_append] at ht
      rcases hline with hline | hline
      · refine ⟨s ++ "\n" ++ t, ?_⟩
        rw [hline, hs, ht, Text.bytes_append, Text.bytes_append, List.append_assoc]
        rfl
      · refine ⟨s ++ "\r\n" ++ t, ?_⟩
        rw [hline, hs, ht, Text.bytes_append, Text.bytes_append, List.append_assoc,
          List.append_assoc]
        rfl
    · rw [splitLines_cons_of_ne hb] at h
      obtain ⟨s, hs⟩ := ih h
      refine ⟨s, ?_⟩
      rw [← hs, List.reverse_cons, List.append_assoc]
      rfl

/-- A file that can be read as feedback is a text. -/
theorem exists_text_of_readAll {content : List UInt8} {records : List FeedbackRecord}
    (h : readAll content = .ok records) : ∃ s, content = Text.bytes s :=
  exists_text_of_splitLines (exists_texts_of_readLines h)

/-! ## The last line -/

/-- The text behind the last line feed. -/
def lastLine (s : String) : List Char :=
  (s.toList.reverse.takeWhile (· != '\n')).reverse

/-- No line feed stands in the last line. -/
theorem lineFeed_notMem_lastLine (s : String) : '\n' ∉ lastLine s := by
  intro h
  have hne := List.mem_takeWhile_imp (List.mem_reverse.1 h)
  simp at hne

/-- In front of the last line stand complete lines. -/
theorem exists_append_lastLine (s : String) :
    ∃ front, s.toList = front ++ lastLine s ∧ (front = [] ∨ ∃ cs, front = cs ++ ['\n']) := by
  refine ⟨(s.toList.reverse.dropWhile (· != '\n')).reverse, ?_, ?_⟩
  · rw [lastLine, ← List.reverse_append, List.takeWhile_append_dropWhile, List.reverse_reverse]
  · cases hdrop : s.toList.reverse.dropWhile (· != '\n') with
    | nil => exact Or.inl rfl
    | cons c cs =>
      have hhead := List.head?_dropWhile_not (· != '\n') s.toList.reverse
      rw [hdrop] at hhead
      have hc : c = '\n' := by simpa using hhead
      rw [hc, List.reverse_cons]
      exact Or.inr ⟨cs.reverse, rfl⟩

/-- The bytes of a text are closed if it is empty or ends with a line feed. -/
theorem closed_bytesOf {front : List Char} (h : front = [] ∨ ∃ cs, front = cs ++ ['\n']) :
    Closed (Text.bytesOf front) := by
  rcases h with rfl | ⟨cs, rfl⟩
  · exact Or.inl rfl
  · exact Or.inr ⟨Text.bytesOf cs, Text.bytesOf_append cs ['\n']⟩

theorem notMem_bytesOf {cs : List Char} (h : '\n' ∉ cs) : 10 ∉ Text.bytesOf cs :=
  fun hmem => h ((Text.ofNat_mem_bytesOf_iff (c := '\n') (by decide)).1 hmem)

/-! ## The line of a record -/

/-- A record whose parts are read back: the time is a word of 64 bits, and the payload was read. -/
structure Recordable (r : FeedbackRecord) : Prop where
  receivedAt_lt : r.receivedAt < 0x10000000000000000
  payload : Accepted Json.nestingLimit r.payload

variable {r : FeedbackRecord}

/-- A record is written as an object of two members. -/
theorem toRaw_toJson (r : FeedbackRecord) :
    r.toJson.toRaw =
      Raw.record [("received_at_ms", Raw.ofDigits r.receivedAt), ("payload", r.payload.toRaw)] := by
  rw [toJson, Json.toRaw_object, List.map_cons, List.map_cons, List.map_nil, Json.toRaw_ofNat]

/-- Records that may be written are well spelled. -/
theorem Recordable.wellSpelled (h : r.Recordable) : r.toJson.toRaw.WellSpelled := by
  rw [toRaw_toJson]
  apply Raw.wellSpelled_record
  simp only [List.forall_mem_cons]
  exact ⟨Raw.wellSpelled_ofDigits _, Json.wellSpelled_toRaw h.payload.wellFormed.readsBack, by simp⟩

/-- The payload of a record stands one level deeper than it was read. -/
theorem Recordable.ofRaw?_toRaw (h : r.Recordable) :
    ofRaw? r.toJson.toRaw = if r.payload.depth < Json.nestingLimit then some r else none := by
  have hword := Raw.word?_ofDigits h.receivedAt_lt le_rfl
  have hpayload := h.payload.ofRaw?_toRaw (Json.nestingLimit - 1)
  have hfields : (Raw.record [("received_at_ms", Raw.ofDigits r.receivedAt),
      ("payload", r.payload.toRaw)]).fields? ["received_at_ms", "payload"] 0 =
        some [some (Raw.ofDigits r.receivedAt), some r.payload.toRaw] := by
    rw [Raw.fields?_record]
    rfl
  rw [ofRaw?, toRaw_toJson, hfields]
  dsimp only
  rw [hword, hpayload]
  by_cases hdepth : r.payload.depth < Json.nestingLimit
  · rw [if_pos hdepth, if_pos (Nat.le_sub_one_of_lt hdepth)]
  · rw [if_neg hdepth, if_neg fun hle => hdepth (Nat.lt_of_le_sub_one (by decide) hle)]

/-- A record begins with a brace and ends with one. -/
theorem exists_compact_eq (r : FeedbackRecord) :
    ∃ inner, r.toJson.toRaw.compact = '{' :: inner ++ ['}'] := by
  rw [toRaw_toJson, Raw.record, Raw.compact]
  exact ⟨_, rfl⟩

/-- What a record is read as behind other text.  Only blanks of JSON may stand there, and the
payload must leave room for the level of the record. -/
theorem Recordable.parse?_append (h : r.Recordable) {last : List Char}
    (hlast : (∀ c ∈ last, Text.isBlankChar c = true) ∨
      ∃ other, parse? (String.ofList last) = some other) :
    parse? (String.ofList (last ++ r.toJson.toRaw.compact)) =
      if last.all Token.isSpace = true ∧ r.payload.depth < Json.nestingLimit then some r
      else none := by
  by_cases hspace : last.all Token.isSpace = true
  · rw [parse?, Raw.parse?_spaces (List.all_eq_true.1 hspace), Raw.parse?_compact h.wellSpelled,
      Option.bind_some, h.ofRaw?_toRaw]
    by_cases hdepth : r.payload.depth < Json.nestingLimit
    · rw [if_pos hdepth, if_pos ⟨hspace, hdepth⟩]
    · rw [if_neg hdepth, if_neg fun hall => hdepth hall.2]
  · obtain ⟨inner, hinner⟩ := exists_compact_eq r
    rw [if_neg fun hall => hspace hall.1, parse?, hinner, List.cons_append]
    rcases hlast with hblank | ⟨other, hother⟩
    · rw [Raw.parse?_foreignBlank hblank (mt List.all_eq_true.2 hspace)]
      rfl
    · obtain ⟨value, hvalue, -⟩ := Option.bind_eq_some_iff.1 hother
      rw [Raw.parse?_append_object hvalue]
      rfl

/-! ## Files -/

/-- What separates tokens is blank. -/
theorem isBlankChar_of_isSpace {c : Char} (h : Token.isSpace c = true) :
    Text.isBlankChar c = true := by
  simp only [Token.isSpace, Bool.or_eq_true, beq_iff_eq] at h
  rcases h with ((rfl | rfl) | rfl) | rfl <;> decide

/-- The text behind the last line feed is read as one line, also if there is none. -/
theorem readLines_lastLine (s : String) :
    readLines (splitLines [] (Text.bytesOf (lastLine s))) =
      readLines [Text.bytesOf (lastLine s)] := by
  rw [splitLines_open (notMem_bytesOf (lineFeed_notMem_lastLine s))]
  by_cases hempty : Text.bytesOf (lastLine s) = []
  · rw [if_pos hempty, hempty]
    exact (readLines_singleton []).symm
  · rw [if_neg hempty]

/-- The lines of a file behind which a record has been written. -/
theorem Recordable.splitLines_append_line (h : r.Recordable) {s : String} {front : List Char}
    (hs : s.toList = front ++ lastLine s) (hfront : Closed (Text.bytesOf front)) :
    splitLines [] (Text.bytes (s ++ r.line)) =
      splitLines [] (Text.bytesOf front) ++
        [Text.bytesOf (lastLine s ++ r.toJson.toRaw.compact)] := by
  obtain ⟨inner, hinner⟩ := exists_compact_eq r
  have hbytes : Text.bytes (s ++ r.line) =
      Text.bytesOf front ++ (Text.bytesOf (lastLine s ++ '{' :: inner) ++ [125] ++ [10]) := by
    rw [Text.bytes_append, Text.bytes_eq, hs, Text.bytesOf_append, line, Text.bytes_append,
      Json.compact, Text.bytes_ofList, hinner, Text.bytesOf_append, Text.bytesOf_append]
    simp only [List.append_assoc]
    rfl
  have hline : Text.bytesOf (lastLine s ++ r.toJson.toRaw.compact) =
      Text.bytesOf (lastLine s ++ '{' :: inner) ++ [125] := by
    rw [hinner, ← List.append_assoc, Text.bytesOf_append]
    rfl
  have hnone : 10 ∉ Text.bytesOf (lastLine s ++ r.toJson.toRaw.compact) := by
    apply notMem_bytesOf
    rw [List.mem_append, not_or]
    refine ⟨lineFeed_notMem_lastLine s, fun hmem => ?_⟩
    exact absurd (Raw.le_of_mem_compact h.wellSpelled _ hmem) (by decide)
  rw [hbytes, splitLines_append hfront, hline, splitLines_closed (hline ▸ hnone) (by decide)]

/-- What is read from a file behind which a record has been written: the record follows those that
were there if the last line holds nothing but blanks of JSON and the payload leaves room for the
level of the record.  Otherwise no record of the file is read. -/
theorem Recordable.readAll_append_line (h : r.Recordable) {s : String}
    {records : List FeedbackRecord} (hread : readAll (Text.bytes s) = .ok records) :
    readAll (Text.bytes (s ++ r.line)) =
      if (lastLine s).all Token.isSpace = true ∧ r.payload.depth < Json.nestingLimit then
        .ok (records ++ [r])
      else .error .malformedRecord := by
  obtain ⟨front, hs, hfront⟩ := exists_append_lastLine s
  have hclosed := closed_bytesOf hfront
  have hbefore : splitLines [] (Text.bytes s) = splitLines [] (Text.bytesOf front) ++
      splitLines [] (Text.bytesOf (lastLine s)) := by
    rw [Text.bytes_eq, hs, Text.bytesOf_append, splitLines_append hclosed]
  rw [readAll, hbefore, readLines_append, Outcome.bind_eq_ok_iff] at hread
  obtain ⟨first, hfirst, hrest⟩ := hread
  obtain ⟨second, hsecond, rfl⟩ := Outcome.map_eq_ok_iff.1 hrest
  rw [readLines_lastLine, readLines_singleton] at hsecond
  have hblank : ¬ (lastLine s ++ r.toJson.toRaw.compact).all Text.isBlankChar = true := by
    obtain ⟨inner, hinner⟩ := exists_compact_eq r
    rw [hinner]
    simp [Text.isBlankChar, Text.blankRanges]
  have hlast : (∀ c ∈ lastLine s, Text.isBlankChar c = true) ∨
      ∃ other, parse? (String.ofList (lastLine s)) = some other := by
    by_cases hall : (lastLine s).all Text.isBlankChar = true
    · exact Or.inl (List.all_eq_true.1 hall)
    · rw [if_neg hall] at hsecond
      cases hother : parse? (String.ofList (lastLine s)) with
      | none => rw [hother] at hsecond; cases hsecond
      | some other => exact Or.inr ⟨other, rfl⟩
  rw [readAll, h.splitLines_append_line hs hclosed, readLines_append, hfirst, readLines_singleton,
    if_neg hblank, h.parse?_append hlast]
  by_cases hgood : (lastLine s).all Token.isSpace = true ∧ r.payload.depth < Json.nestingLimit
  · have hall : (lastLine s).all Text.isBlankChar = true :=
      List.all_eq_true.2 fun c hc => isBlankChar_of_isSpace (List.all_eq_true.1 hgood.1 c hc)
    rw [if_pos hall] at hsecond
    cases hsecond
    rw [if_pos hgood, if_pos hgood, List.append_nil]
    rfl
  · rw [if_neg hgood, if_neg hgood]
    rfl

end LeadScoring.FeedbackRecord
