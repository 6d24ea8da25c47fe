import LeadScoring.Assessment
import LeadScoring.Toml.Reader

/-!
# Scoring configuration

The configuration names the tier thresholds, how many contributions an explanation keeps, and
where the compiled artifact lies.  All of it has defaults.  It is read from TOML, where a section
may be a table or an array of its settings in order, and unknown settings are skipped.

Main definitions:

- `ScoringConfig`, `ConfigError`.
- `ScoringConfig.ofToml`: reading and checking.
- `ScoringConfig.toToml`: writing.
-/

namespace LeadScoring

open Toml (Node Entries)

/-- The settings of scoring. -/
structure ScoringConfig where
  tiers : TierThresholds := ⟨0.85, 0.6⟩
  /-- How many contributions an exact explanation keeps. -/
  keptImpacts : Nat := 5
  /-- The file of the compiled artifact; without it leads are scored by rules. -/
  artifactPath : Option String := none

/-- Why a configuration is refused. -/
inductive ConfigError where
  | malformed
  | thresholdRange (hot warm : Float)
  | thresholdOrder (hot warm : Float)
  | nothingKept

namespace ConfigError

/-- The reason in words. -/
def message : ConfigError → String
  | malformed => "TOML error"
  | thresholdRange hot warm =>
    "Invalid configuration: tier thresholds must lie in [0, 1], got hot=" ++
      Layout.plain.write hot ++ " warm=" ++ Layout.plain.write warm
  | thresholdOrder hot warm =>
    "Invalid configuration: warm threshold " ++ Layout.plain.write warm ++
      " exceeds hot threshold " ++ Layout.plain.write hot
  | nothingKept => "Invalid configuration: explanation.top_k must be positive"

end ConfigError

namespace ScoringConfig

/-! ## Reading -/

/-- The settings of a section by name: those of a table, or the items of an array in order.  A
date has no settings. -/
def settings? (names : List String) : Node → Option Entries
  | .table _ entries => some entries
  | .array items => some (names.zip items)
  | .tables items => some (names.zip items)
  | .moment => some []
  | _ => none

/-- A number of either kind as a float. -/
def float? : Node → Option Float
  | .float x => some x
  | .integer i => some (if i < 0 then -Float.ofNat i.natAbs else Float.ofNat i.natAbs)
  | _ => none

/-- An integer that is not negative. -/
def count? : Node → Option Nat
  | .integer i => if 0 ≤ i then some i.toNat else none
  | _ => none

/-- A string. -/
def text? : Node → Option String
  | .string s => some s
  | _ => none

/-- The value of a setting, or its default if it is not there. -/
def setting? {β : Type} (read : Node → Option β) (name : String) (default : β)
    (entries : Entries) : Option β :=
  match entries.find? name with
  | some node => read node
  | none => some default

/-- The tier thresholds of their section. -/
def tiers? (node : Node) : Option TierThresholds := do
  let entries ← settings? ["hot", "warm"] node
  let hot ← setting? float? "hot" (0.85 : Float) entries
  let warm ← setting? float? "warm" (0.6 : Float) entries
  return ⟨hot, warm⟩

/-- The number of kept contributions of its section. -/
def keptImpacts? (node : Node) : Option Nat := do
  let entries ← settings? ["top_k"] node
  setting? count? "top_k" 5 entries

/-- The artifact's file of its section. -/
def artifactPath? (node : Node) : Option (Option String) := do
  let entries ← settings? ["path"] node
  setting? (fun node => (text? node).map some) "path" none entries

/-- The configuration of a document before it is checked. -/
def ofEntries? (entries : Entries) : Option ScoringConfig := do
  let tiers ← setting? tiers? "tiers" ⟨0.85, 0.6⟩ entries
  let keptImpacts ← setting? keptImpacts? "explanation" 5 entries
  let artifactPath ← setting? artifactPath? "artifact" none entries
  return { tiers, keptImpacts, artifactPath }

/-- Whether a threshold is a probability. -/
def isProbability (x : Float) : Bool :=
  decide (0.0 ≤ x) && decide (x ≤ 1.0)

/-- The first fault of a configuration. -/
def fault? (c : ScoringConfig) : Option ConfigError :=
  let ⟨hot, warm⟩ := c.tiers
  if !isProbability hot || !isProbability warm then some (.thresholdRange hot warm)
  else if hot < warm then some (.thresholdOrder hot warm)
  else if c.keptImpacts = 0 then some .nothingKept
  else none

/-- The configuration of a TOML text. -/
def ofToml (text : String) : Except ConfigError ScoringConfig :=
  match (Toml.parse? text).bind ofEntries? with
  | none => .error .malformed
  | some c =>
    match c.fault? with
    | some fault => .error fault
    | none => .ok c

/-! ## Writing -/

/-- The TOML text of a configuration. -/
def toToml (c : ScoringConfig) : String :=
  "[tiers]\nhot = " ++ Layout.config.write c.tiers.hot ++
    "\nwarm = " ++ Layout.config.write c.tiers.warm ++
    "\n\n[explanation]\ntop_k = " ++ toString c.keptImpacts ++
    "\n\n[artifact]\n" ++
    (match c.artifactPath with
      | some path => "path = " ++ String.ofList (Toml.writeString path.toList) ++ "\n"
      | none => "")

end ScoringConfig

end LeadScoring
