import LeadScoring.CommandLine.Command
import LeadScoring.Config
import LeadScoring.Feedback
import LeadScoring.Model.Document
import LeadScoring.Scorer
import LeadScoring.Workspace.Basic
import LeadScoring.Workspace.Time

/-!
# Running commands

What each command does in a workspace.  A command either writes its answer to the output or stops
at the first step that fails, with a complaint about that step; files written before stay.

Main definitions:

- `Reply`: exit code, output and complaint.
- `Command.run`: the effect of a command.
- `respond`: the reply to a command line.
-/

namespace LeadScoring.CommandLine

variable {m : Type → Type} [Monad m] [Workspace m]

/-- What a command line answers. -/
structure Reply where
  exit : UInt32
  output : String := ""
  complaint : Option String := none
deriving DecidableEq, Repr

/-- A step that fails with a complaint. -/
abbrev Step (m : Type → Type) := ExceptT String m

/-! ## Steps -/

/-- The text of a file. -/
def readText (path complaint : String) : Step m String := do
  match ← (Workspace.read? path : m (Option String)) with
  | some text => return text
  | none => throw complaint

/-- A step that may fail. -/
def ensure (step : m Bool) (complaint : String) : Step m Unit := do
  if !(← step) then throw complaint

/-- The value of a result, or a complaint. -/
def orComplain {ε β : Type} (result : Except ε β) (complaint : String) : Step m β :=
  match result with
  | .ok x => return x
  | .error _ => throw complaint

/-- The value of an option, or a complaint. -/
def valueOrComplain {β : Type} (value : Option β) (complaint : String) : Step m β :=
  match value with
  | some x => return x
  | none => throw complaint

/-- The configuration of a file, or the default one. -/
def loadConfig : Option String → Step m ScoringConfig
  | none => return {}
  | some path => do
    let complaint := "Failed to load configuration " ++ path
    let text ← readText path complaint
    orComplain (ScoringConfig.ofToml text) complaint

/-- The leads of a file: the items of an array, or a single value. -/
def leadsOf : Value → List Lead
  | .array items => items.map Lead.ofValue
  | value => [Lead.ofValue value]

/-- The leads of a file. -/
def readLeads (path : String) : Step m (List Lead) := do
  let text ← readText path ("Failed to read lead file " ++ path)
  return leadsOf (← valueOrComplain (Json.parse? text) "Lead file is not valid JSON")

/-- The engine of an artifact's file; without a readable file leads are scored by rules. -/
def loadEngine : Option String → m (Engine Float)
  | none => return .rulesOnly
  | some path => do
    match ← (Workspace.read? path : m (Option String)) with
    | some text => return .ofText text
    | none => return .rulesOnly

/-- Writes a document in its indented form. -/
def writeDocument (path : String) (document : Value) : Step m Unit :=
  ensure (Workspace.write path document.pretty) ("Failed to write " ++ path)

/-! ## Commands -/

/-- Trains a model and writes the artifact, its digest, the fitted model and the report. -/
def train (settings : TrainCommand) : Step m String := do
  let text ← readText settings.input "Training failed"
  let outcome ← orComplain (trainOnCsv settings.options text) "Training failed"
  let place := Workspace.join settings.output
  let time ← (Workspace.time : m Nat)
  ensure (Workspace.makeDirectories settings.output) "Failed to create output directory"
  ensure (Workspace.write (place "artifact.json") outcome.artifact.canonical)
    "Failed to write artifact"
  ensure (Workspace.write (place "artifact.hash") outcome.report.artifactDigest)
    "Failed to write hash file"
  writeDocument (place "fitted_model.json") outcome.model.toJson
  writeDocument (place "training_report.json") (outcome.report.toJson (timeText time))
  return ""

/-- The name of a score's source. -/
def sourceName : ScoreSource → String
  | .model => "model"
  | .rules => "fallback"

/-- A scored lead as a JSON value, with its assessment if one is asked for. -/
def scoredToJson (engine : Engine Float) (thresholds : Option TierThresholds) (lead : Lead) :
    Value :=
  let (result, source) := engine.score lead
  .object
    (result.members ++ [("source", .string (sourceName source))] ++
      match thresholds with
      | some thresholds => [("assessment", (Assessment.build lead result thresholds).toJson)]
      | none => [])

/-- Scores the leads of a file; a single lead is answered without an array around it. -/
def score (settings : ScoreCommand) : Step m String := do
  let config ← loadConfig settings.config
  let engine ← (loadEngine (settings.artifact <|> config.artifactPath) : m (Engine Float))
  let leads ← readLeads settings.lead
  let thresholds := if settings.assess then some config.tiers else none
  let document : Value :=
    match leads.map (scoredToJson engine thresholds) with
    | [scored] => scored
    | scored => .array scored
  return document.pretty ++ "\n"

/-- Explains the score of one lead. -/
def explain (settings : ExplainCommand) : Step m String := do
  let text ← readText settings.model ("Failed to read fitted model " ++ settings.model)
  let model : FittedModel Float ←
    valueOrComplain (FittedModel.parse? text) "Failed to parse fitted model"
  let kept ←
    match settings.kept with
    | some kept => pure kept
    | none => do pure (← loadConfig settings.config).keptImpacts
  let explainer ← orComplain (model.explainer kept) "Fitted model is malformed"
  match ← readLeads settings.lead with
  | [lead] => return (explainer.explain lead).toJson.pretty ++ "\n"
  | leads => throw ("explain expects exactly one lead, got " ++ toString leads.length)

/-- The milliseconds of a time in nanoseconds, as an unsigned word of 64 bits. -/
def milliseconds (nanoseconds : Nat) : Nat :=
  nanoseconds / 1000000 % 0x10000000000000000

/-- Appends a record of feedback to a file. -/
def feedback (settings : FeedbackCommand) : Step m String := do
  let payload : Value ←
    valueOrComplain (Json.parse? settings.payload) "Feedback payload is not JSON"
  let .object _ := payload | throw "feedback payload must be a JSON object"
  let time ← (Workspace.time : m Nat)
  let record : FeedbackRecord := ⟨milliseconds time, payload⟩
  ensure (Workspace.append settings.sink record.line) "Failed to record feedback"
  return ""

namespace Command

/-- The effect of a command and its output. -/
def run : Command → Step m String
  | train settings => CommandLine.train settings
  | score settings => CommandLine.score settings
  | explain settings => CommandLine.explain settings
  | feedback settings => CommandLine.feedback settings

end Command

/-! ## Command lines -/

/-- The name and version of the program. -/
def versionText : String :=
  "leadscore 0.1.0\n"

/-- How the program is called. -/
def usageText : String :=
  "Usage: leadscore [OPTIONS] <COMMAND>\n\nCommands:\n" ++
    "  train     Train a forest from a CSV export and compile it\n" ++
    "  score     Score leads with a compiled artifact, or the fallback rules\n" ++
    "  explain   Explain a lead's score exactly from a fitted model\n" ++
    "  feedback  Append a feedback record to a JSON-lines file\n"

/-- The reply to a command line that stops early. -/
def replyToStop : Stop → Reply
  | .requested "version" => { exit := 0, output := versionText }
  | .requested _ => { exit := 0, output := usageText }
  | .refused error => { exit := 2, complaint := some error.message }

/-- The reply to a command line, together with its effect. -/
def respond (words : List String) : m Reply := do
  match Command.parse words with
  | .error stop => return replyToStop stop
  | .ok command =>
    match ← command.run.run with
    | .ok output => return { exit := 0, output := output }
    | .error complaint => return { exit := 1, complaint := some complaint }

end LeadScoring.CommandLine
