import LeadScoring.CommandLine.Options
import LeadScoring.Pipeline

/-!
# Commands

The four commands with their settings, and how they are read from the words of a command line.

Main definitions:

- `Command`: training, scoring, explaining, and recording feedback.
- `Command.parse`: the command of a command line.
-/

namespace LeadScoring.CommandLine

/-- The settings of a training run. -/
structure TrainCommand where
  input : String
  /-- The directory for the artifact, its digest, the fitted model and the report. -/
  output : String
  options : TrainingOptions Float

/-- The settings of scoring. -/
structure ScoreCommand where
  lead : String
  /-- Counts before the artifact of the configuration. -/
  artifact : Option String
  config : Option String
  /-- Whether each score comes with its assessment. -/
  assess : Bool

/-- The settings of an exact explanation. -/
structure ExplainCommand where
  model : String
  lead : String
  /-- Counts before the number in the configuration. -/
  kept : Option Nat
  config : Option String

/-- The settings of recording feedback. -/
structure FeedbackCommand where
  sink : String
  payload : String

/-- A command with its settings. -/
inductive Command where
  | train (settings : TrainCommand)
  | score (settings : ScoreCommand)
  | explain (settings : ExplainCommand)
  | feedback (settings : FeedbackCommand)

namespace Command

/-! ## The options of each command -/

/-- Options that every command knows. -/
def commonForms : List OptionForm :=
  [⟨"verbose", some 'v', .switch⟩, ⟨"help", some 'h', .request⟩]

/-- Options before the command. -/
def leadingForms : List OptionForm :=
  ⟨"version", some 'V', .request⟩ :: commonForms

/-- The options of training. -/
def trainForms : List OptionForm :=
  [⟨"input", some 'i', .value .path⟩, ⟨"output", some 'o', .value .path⟩,
   ⟨"trees", none, .value .count⟩, ⟨"max-depth", none, .value .count⟩,
   ⟨"min-samples-split", none, .value .count⟩, ⟨"min-samples-leaf", none, .value .count⟩,
   ⟨"max-features", none, .value .features⟩, ⟨"seed", none, .value .count⟩,
   ⟨"test-fraction", none, .value .number⟩, ⟨"cv-folds", none, .value .count⟩,
   ⟨"no-shuffle", none, .switch⟩, ⟨"sequential", none, .switch⟩] ++ commonForms

/-- The options of scoring. -/
def scoreForms : List OptionForm :=
  [⟨"lead", some 'l', .value .path⟩, ⟨"artifact", some 'a', .value .path⟩,
   ⟨"config", some 'c', .value .path⟩, ⟨"assess", none, .switch⟩] ++ commonForms

/-- The options of explaining. -/
def explainForms : List OptionForm :=
  [⟨"model", some 'm', .value .path⟩, ⟨"lead", some 'l', .value .path⟩,
   ⟨"top-k", some 'k', .value .count⟩, ⟨"config", some 'c', .value .path⟩] ++ commonForms

/-- The options of recording feedback. -/
def feedbackForms : List OptionForm :=
  ⟨"sink", some 's', .value .path⟩ :: commonForms

/-! ## Settings -/

/-- The path of an option that has to be given. -/
def requiredPath (g : Given) (name : String) : Except Stop String :=
  match g.path? name with
  | some path => .ok path
  | none => refuse (.missingOption name)

/-- The settings of training. -/
def trainSettings (g : Given) : Except Stop TrainCommand := do
  let input ← requiredPath g "input"
  let tree : TreeConfig :=
    { maxDepth := g.count? "max-depth"
      minSamplesSplit := (g.count? "min-samples-split").getD 2
      minSamplesLeaf := (g.count? "min-samples-leaf").getD 1
      maxFeatures := (g.features? "max-features").getD .sqrt }
  let forest : ForestConfig :=
    { treeCount := (g.count? "trees").getD 100
      tree := tree
      bootstrap := true
      seed := UInt64.ofNat ((g.count? "seed").getD 42)
      parallel := !g.has "sequential" }
  let testFraction := (g.number? "test-fraction").getD (0.2 : Float)
  let folds := (g.count? "cv-folds").getD 5
  return ⟨input, (g.path? "output").getD "models/lead_scoring",
    ⟨forest, testFraction, folds, !g.has "no-shuffle", .standard⟩⟩

/-- The settings of scoring. -/
def scoreSettings (g : Given) : Except Stop ScoreCommand := do
  let lead ← requiredPath g "lead"
  return ⟨lead, g.path? "artifact", g.path? "config", g.has "assess"⟩

/-- The settings of explaining. -/
def explainSettings (g : Given) : Except Stop ExplainCommand := do
  let model ← requiredPath g "model"
  let lead ← requiredPath g "lead"
  return ⟨model, lead, g.count? "top-k", g.path? "config"⟩

/-- The settings of recording feedback: the payload stands outside of options. -/
def feedbackSettings (g : Given) : Except Stop FeedbackCommand :=
  match g.operands with
  | payload :: _ => .ok ⟨(g.path? "sink").getD "feedback.jsonl", payload⟩
  | [] => refuse (.missingOperand "payload")

/-! ## Command lines -/

/-- The names of the commands. -/
def names : List String :=
  ["train", "score", "explain", "feedback"]

/-- A request for help, which may name one command or itself. -/
def helpOn : List String → Except Stop Command
  | [] => .error (.requested "help")
  | word :: words =>
    if word = "help" || names.contains word then
      match words with
      | [] => .error (.requested "help")
      | word :: _ => refuse (.unknownCommand word)
    else refuse (.unknownCommand word)

/-- The command of a name with the words behind it. -/
def named (name : String) (words : List String) : Except Stop Command := do
  match name with
  | "train" => return .train (← trainSettings (← Given.read trainForms 0 words))
  | "score" => return .score (← scoreSettings (← Given.read scoreForms 0 words))
  | "explain" => return .explain (← explainSettings (← Given.read explainForms 0 words))
  | "feedback" => return .feedback (← feedbackSettings (← Given.read feedbackForms 1 words))
  | "help" => helpOn words
  | name => refuse (.unknownCommand name)

/-- The command of a command line behind the options `g` that have been read. -/
def parseFrom (g : Given) : List String → Except Stop Command
  | [] => refuse .missingCommand
  | word :: words =>
    if word = "--" then refuse .missingCommand
    else if Given.looksLikeOption word then
      match Given.readOption leadingForms g word with
      | .error stop => .error stop
      | .ok (g, _) => parseFrom g words
    else named word words

/-- The command of a command line. -/
def parse (words : List String) : Except Stop Command :=
  parseFrom {} words

end Command

end LeadScoring.CommandLine
