import LeadScoring.CommandLine.Run
import LeadScoring.Proofs.Feedback.Lines
import LeadScoring.Proofs.Workspace.Directory

/-!
# Recording feedback

The command checks its payload, stamps it with the time, and appends the record to a file without
looking at what the file holds.  So whether the file can still be read depends on how it ended: the
new record is read behind the others if the last line was empty but for blanks of JSON, and if the
payload is not nested so deep that the record goes beyond the limit.  In every other case no record
of the file can be read any more.

Main results:

- Theorem `CommandLine.run_feedback`: what the command does, and that a refused payload leaves the
  directory as it was.
- Theorem `CommandLine.readAll_feedback`: what is read from the file after the command.
- Theorem `CommandLine.unreadable_openTail_deepFeedback`: feedback can be lost in two ways.
-/

namespace LeadScoring.CommandLine

open Json (Token)

/-! ## The command -/

/-- The record that the command makes of a payload. -/
def recordAt (d : Directory) (payload : Value) : FeedbackRecord :=
  ⟨milliseconds d.time, payload⟩

/-- An attempted step reports whether it was made, and leaves things as they are if it was not. -/
theorem run_attempt (step : Directory → Option Directory) (d : Directory) :
    (Directory.attempt step).run d =
      match step d with
      | some after => (true, after)
      | none => (false, d) := by
  change (match step d with
    | some after => _
    | none => _ : StateM Directory Bool).run d = _
  cases step d <;> rfl

/-- Appending a line that depends on the time. -/
theorem run_append_stamped (sink complaint : String) (line : ℕ → String) (d : Directory) :
    (do
      let time ← (Workspace.time : StateM Directory ℕ)
      ensure (Workspace.append sink (line time)) complaint
      return "" : Step (StateM Directory) String).run.run d =
      match d.update? sink fun old => old.getD "" ++ line d.time with
      | some after => (.ok "", after)
      | none => (.error complaint, d) := by
  have happend : ∀ text : String, (Workspace.append sink text : StateM Directory Bool) =
      Directory.attempt fun e => e.update? sink fun old => old.getD "" ++ text :=
    fun _ => rfl
  have htime : (Workspace.time : StateM Directory ℕ).run d = (d.time, d) := rfl
  simp only [ensure, happend, Bool.not_eq_eq_eq_not, Bool.not_true, bind_pure_comp, map_bind,
    ExceptT.run_bind, ExceptT.run_liftM, ExceptT.run_map, bind_map_left, StateT.run_bind, htime,
    run_attempt, StateT.run_map]
  dsimp only [bind, Functor.map]
  cases d.update? sink fun old => old.getD "" ++ line d.time with
  | none => rfl
  | some after => rfl

/-- What the command does in a directory.  Nothing is written unless it succeeds. -/
theorem run_feedback (settings : FeedbackCommand) (d : Directory) :
    (feedback settings : Step (StateM Directory) String).run.run d =
      match (Json.parse? settings.payload : Option Value) with
      | some (.object members) =>
        match d.update? settings.sink fun old =>
            old.getD "" ++ (recordAt d (.object members)).line with
        | some after => (.ok "", after)
        | none => (.error "Failed to record feedback", d)
      | some _ => (.error "feedback payload must be a JSON object", d)
      | none => (.error "Feedback payload is not JSON", d) := by
  unfold feedback
  cases (Json.parse? settings.payload : Option Value) with
  | none => rfl
  | some payload =>
    cases payload with
    | object members =>
      -- the pure step is removed by rewriting, since unfolding it takes the time apart as well
      simp only [valueOrComplain, pure_bind]
      exact run_append_stamped settings.sink "Failed to record feedback"
        (fun time => (⟨milliseconds time, .object members⟩ : FeedbackRecord).line) d
    | _ => rfl

/-- The command succeeds with an object as payload and a path to a file or to nothing. -/
theorem exists_run_feedback {settings : FeedbackCommand} {d : Directory} {place : Place}
    {members : List (String × Value)}
    (hpayload : Json.parse? settings.payload = some (Json.object members : Value))
    (hsink : settings.sink ≠ Directory.nullDevice) (hplace : d.place? settings.sink = some place)
    (hfree : d.isDirectory place = false) :
    ∃ after, (feedback settings : Step (StateM Directory) String).run.run d = (.ok "", after) ∧
      after.read? settings.sink =
        some ((d.read? settings.sink).getD "" ++ (recordAt d (.object members)).line) := by
  obtain ⟨after, hupdate⟩ : ∃ after, d.update? settings.sink (fun old =>
      old.getD "" ++ (recordAt d (.object members)).line) = some after := by
    rw [Directory.update?, if_neg hsink, hplace]
    exact ⟨_, if_neg (by simp [hfree])⟩
  refine ⟨after, ?_, Directory.read?_of_update? hsink hupdate⟩
  rw [run_feedback, hpayload]
  dsimp only
  rw [hupdate]

/-- A payload that the command has recorded, and where. -/
theorem exists_of_run_feedback {settings : FeedbackCommand} {d after : Directory} {output : String}
    (h : (feedback settings : Step (StateM Directory) String).run.run d = (.ok output, after)) :
    ∃ payload : Value, Json.parse? settings.payload = some payload ∧
      d.update? settings.sink (fun old => old.getD "" ++ (recordAt d payload).line) =
        some after := by
  rw [run_feedback] at h
  cases hpayload : (Json.parse? settings.payload : Option Value) with
  | none => rw [hpayload] at h; cases h
  | some payload =>
    rw [hpayload] at h
    refine ⟨payload, rfl, ?_⟩
    cases payload with
    | object members =>
      dsimp only at h
      cases hupdate : d.update? settings.sink fun old =>
          old.getD "" ++ (recordAt d (.object members)).line with
      | none => rw [hupdate] at h; cases h
      | some other => rw [hupdate] at h; cases h; rfl
    | _ => cases h

/-- The time fits a word, and the payload was read. -/
theorem recordable_recordAt {text : String} {payload : Value} (d : Directory)
    (h : Json.parse? text = some payload) : (recordAt d payload).Recordable :=
  ⟨Nat.mod_lt _ (by decide), Json.accepted_of_parse? h⟩

/-! ## What is read afterwards -/

/-- What is read from a file after feedback has been recorded in it.  The new record follows the
others if the last line of the file holds nothing but blanks of JSON and the payload is nested less
deep than a text may be.  Otherwise the whole file is refused. -/
theorem readAll_feedback {settings : FeedbackCommand} {d after : Directory} {output : String}
    {records : List FeedbackRecord} (hsink : settings.sink ≠ Directory.nullDevice)
    (hrun : (feedback settings : Step (StateM Directory) String).run.run d = (.ok output, after))
    (hread : FeedbackRecord.readAll (Text.bytes ((d.read? settings.sink).getD "")) =
      .ok records) :
    ∃ payload : Value, Json.parse? settings.payload = some payload ∧
      FeedbackRecord.readAll (Text.bytes ((after.read? settings.sink).getD "")) =
        if (FeedbackRecord.lastLine ((d.read? settings.sink).getD "")).all Token.isSpace = true ∧
            payload.depth < Json.nestingLimit then
          .ok (records ++ [recordAt d payload])
        else .error .malformedRecord := by
  obtain ⟨payload, hpayload, hupdate⟩ := exists_of_run_feedback hrun
  have hafter := Directory.read?_of_update? hsink hupdate
  have hrecord := recordable_recordAt d hpayload
  refine ⟨payload, hpayload, ?_⟩
  rw [hafter, Option.getD_some]
  exact hrecord.readAll_append_line hread

/-- The path of one component leads to a place of this name. -/
theorem place?_f (d : Directory) : d.place? "f" = some ["f"] := by
  have hcomponents : Directory.components "f" = ["f"] := by
    rw [Directory.components, String.splitOn, if_neg (by decide), String.splitOnAux,
      if_neg (by decide +kernel), if_neg (by decide +kernel), String.splitOnAux,
      if_pos (by decide +kernel)]
    decide +kernel
  rw [Directory.place?, if_neg (by decide +kernel), hcomponents]
  rfl

/-- The levels of a value that was read, if it is an object. -/
def objectDepth? : Option Value → Option ℕ
  | some (.object members) => some (Json.object members).depth
  | _ => none

/-- An object of some depth has been read. -/
theorem exists_members {read : Option Value} {n : ℕ} (h : objectDepth? read = some n) :
    ∃ members, read = some (.object members) ∧ (Json.object members).depth = n := by
  unfold objectDepth? at h
  split at h
  · rename_i members
    exact ⟨members, rfl, Option.some.inj h⟩
  · cases h

theorem read?_f (d : Directory) : d.read? "f" = d.file? ["f"] := by
  rw [Directory.read?, if_neg (by decide), place?_f]
  rfl

/-- A file with a record, an empty line, and blanks behind the last line feed. -/
def blankTail : Directory where
  files := [(["f"], "\x7b\"received_at_ms\":1,\"payload\":\x7b\x7d\x7d\r\n\n \t")]
  made := []
  time := 1700000000123456789

/-- Feedback with numbers of both kinds, a character of two bytes, and members out of order. -/
def nestedFeedback : FeedbackCommand where
  sink := "f"
  payload := "\x7b\"b\": [1, -0.5e1, \x7b\"é\": null\x7d], \"a\": \"x\\ny\"\x7d"

/-- A sink that ends with blank characters and no new line still takes a record. -/
theorem readAll_feedback_blankTail :
    ∃ (after : Directory) (records : List FeedbackRecord) (payload : Value),
      nestedFeedback.sink ≠ Directory.nullDevice ∧
      (feedback nestedFeedback : Step (StateM Directory) String).run.run blankTail =
        (.ok "", after) ∧
      FeedbackRecord.readAll (Text.bytes ((blankTail.read? nestedFeedback.sink).getD "")) =
        .ok records ∧
      Json.parse? nestedFeedback.payload = some payload ∧
      FeedbackRecord.readAll (Text.bytes ((after.read? nestedFeedback.sink).getD "")) =
        .ok (records ++ [recordAt blankTail payload]) := by
  have hsink : nestedFeedback.sink ≠ Directory.nullDevice := by decide
  have hobject : objectDepth? (Json.parse? nestedFeedback.payload) = some 3 := by decide +kernel
  obtain ⟨members, hmembers, hdepth⟩ := exists_members hobject
  obtain ⟨after, hrun, -⟩ := exists_run_feedback hmembers hsink (place?_f blankTail) (by decide)
  have htext : blankTail.read? nestedFeedback.sink = blankTail.file? ["f"] := read?_f blankTail
  have hok : (FeedbackRecord.readAll
      (Text.bytes ((blankTail.file? ["f"]).getD ""))).isOk = true := by decide +kernel
  have hlast : (FeedbackRecord.lastLine ((blankTail.file? ["f"]).getD "")).all Token.isSpace =
      true := by decide +kernel
  cases hrecords : FeedbackRecord.readAll
      (Text.bytes ((blankTail.read? nestedFeedback.sink).getD "")) with
  | error e =>
    rw [htext] at hrecords
    rw [hrecords] at hok
    cases hok
  | ok records =>
    obtain ⟨payload, hpayload, hread⟩ := readAll_feedback hsink hrun hrecords
    rw [hmembers, Option.some.injEq] at hpayload
    rw [hpayload] at hdepth
    rw [if_pos ⟨htext ▸ hlast, hdepth ▸ (by decide : 3 < Json.nestingLimit)⟩] at hread
    exact ⟨after, records, payload, hsink, hrun, rfl, hpayload ▸ hmembers, hread⟩

/-- A file whose only record is not closed by a line feed. -/
def openTail : Directory where
  files := [(["f"], "\x7b\"received_at_ms\":1,\"payload\":\x7b\x7d\x7d")]
  made := []
  time := 2000000

/-- Feedback with one member. -/
def plainFeedback : FeedbackCommand where
  sink := "f"
  payload := "\x7b\"a\":1\x7d"

/-- An empty directory. -/
def noFiles : Directory where
  files := []
  made := []
  time := 2000000

/-- An object with arrays inside each other, nested as deep as a text may be. -/
def deepText : List Char :=
  ['\x7b', '"', 'a', '"', ':'] ++ List.replicate 126 '[' ++ List.replicate 126 ']' ++ ['\x7d']

/-- Feedback that is nested as deep as a text may be. -/
def deepFeedback : FeedbackCommand where
  sink := "f"
  payload := String.ofList deepText

/-- The command succeeds on a file that could be read, and then no record of it can be read. -/
def Unreadable (settings : FeedbackCommand) (d : Directory) : Prop :=
  ∃ (after : Directory) (records : List FeedbackRecord),
    (feedback settings : Step (StateM Directory) String).run.run d = (.ok "", after) ∧
    FeedbackRecord.readAll (Text.bytes ((d.read? settings.sink).getD "")) = .ok records ∧
    FeedbackRecord.readAll (Text.bytes ((after.read? settings.sink).getD "")) =
      .error .malformedRecord

/-- Where the condition fails, the sink cannot be read after recording. -/
theorem unreadable_of_not {settings : FeedbackCommand} {d : Directory} {n : ℕ}
    (hsink : settings.sink = "f") (hfree : d.isDirectory ["f"] = false)
    (hobject : objectDepth? (Json.parse? settings.payload) = some n)
    (hreadable : (FeedbackRecord.readAll (Text.bytes ((d.file? ["f"]).getD ""))).isOk = true)
    (hbad : ¬ ((FeedbackRecord.lastLine ((d.file? ["f"]).getD "")).all Token.isSpace = true ∧
      n < Json.nestingLimit)) : Unreadable settings d := by
  obtain ⟨members, hmembers, hdepth⟩ := exists_members hobject
  have hplace : d.place? settings.sink = some ["f"] := by rw [hsink, place?_f]
  obtain ⟨after, hrun, hafter⟩ := exists_run_feedback hmembers (by rw [hsink]; decide) hplace hfree
  have hrecord := recordable_recordAt d hmembers
  rw [← read?_f, ← hsink] at hreadable hbad
  cases hrecords : FeedbackRecord.readAll (Text.bytes ((d.read? settings.sink).getD "")) with
  | error e => rw [hrecords] at hreadable; cases hreadable
  | ok records =>
    refine ⟨after, records, hrun, hrecords, ?_⟩
    rw [hafter, Option.getD_some, hrecord.readAll_append_line hrecords]
    exact if_neg (hdepth ▸ hbad)

/-- Feedback is lost behind a line that is not closed, and when its payload is nested too deep. -/
theorem unreadable_openTail_deepFeedback :
    Unreadable plainFeedback openTail ∧ Unreadable deepFeedback noFiles := by
  constructor
  · exact unreadable_of_not (n := 1) rfl (by decide) (by decide +kernel) (by decide +kernel)
      (by decide +kernel)
  · have hread : ∀ cs : List Char, (Json.parse? (String.ofList cs) : Option Value) =
        ((Json.tokens? cs).bind Json.Raw.ofTokens?).bind (Json.ofRaw? Json.nestingLimit) := by
      intro cs
      rw [Json.parse?, Json.Raw.parse?, String.toList_ofList]
    have hdeep : objectDepth? (Json.parse? deepFeedback.payload) = some 127 :=
      (congrArg objectDepth? (hread deepText)).trans (by decide +kernel)
    exact unreadable_of_not rfl (by decide) hdeep (by decide +kernel) (by decide)

end LeadScoring.CommandLine
