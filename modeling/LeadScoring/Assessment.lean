import LeadScoring.Explanation

/-!
# Assessments for sales

A scored lead turned into what a sales person reads: a whole number up to one hundred, a tier,
single insights, the reasoning in a sentence and the recommended next action.
-/

namespace LeadScoring

/-- Scores from which a lead counts as hot or warm. -/
structure TierThresholds where
  hot : Float
  warm : Float

/-- How promising a lead is. -/
inductive Tier where
  | hot
  | warm
  | cold
deriving DecidableEq, Repr

namespace Tier

/-- The tier of a score. -/
def ofScore (score : Float) (thresholds : TierThresholds) : Tier :=
  if thresholds.hot ≤ score then hot
  else if thresholds.warm ≤ score then warm
  else cold

/-- The tier's name. -/
def name : Tier → String
  | hot => "Hot"
  | warm => "Warm"
  | cold => "Cold"

end Tier

/-- What a sales person is told about a lead. -/
structure Assessment where
  intentScore : Nat
  tier : Tier
  insights : List String
  reasoning : String
  recommendedAction : String
deriving DecidableEq, Repr

namespace Assessment

/-- The score in hundredths, from zero to one hundred. -/
def intentScoreOf (score : Float) : Nat :=
  let clamped := if score < 0.0 then 0.0 else if 1.0 < score then 1.0 else score
  Binary64.roundNat (clamped * 100.0)

/-- What stands out about a lead: its engagement, then the impacts that are not zero. -/
def insightsOf (s : Signals) (result : Scored Float) : List String :=
  (if 0.0 < s.pageViews then
    ["Visited the website " ++ Layout.plain.write s.pageViews ++ " times."] else []) ++
  (if 0.0 < s.downloads then
    ["Downloaded " ++ Layout.plain.write s.downloads ++ " resources."] else []) ++
  (if s.webinarAttended then ["Attended a recent webinar."] else []) ++
  result.explanation.filterMap fun entry =>
    if 0.0 < entry.impact then some ("Strong positive: " ++ entry.feature ++ ".")
    else if entry.impact < 0.0 then some ("Negative: " ++ entry.feature ++ ".")
    else none

/-- The phrase for a driver of the score, if the lead bears it out. -/
def driverPhrase? (s : Signals) (feature : String) : Option String :=
  if feature = "Page Views" then
    if 0.0 < s.pageViews then
      some ("High website engagement (" ++ Layout.plain.write s.pageViews ++ " page views)")
    else none
  else if feature = "Downloads" then
    if 0.0 < s.downloads then
      some ("Interest in resources (" ++ Layout.plain.write s.downloads ++ " downloads)")
    else none
  else if feature = "Webinar Attendance" || feature = "Webinar Attended" then
    if s.webinarAttended then some "Participation in a recent webinar" else none
  else if feature = "Company Size" then
    s.companySize.map fun size => "Company size: " ++ size
  else if feature = "Industry" then
    s.industry.map fun industry => "Industry: " ++ industry
  else none

/-- Phrases for all that is known about a lead, whatever drove its score. -/
def knownPhrases (s : Signals) : List String :=
  (if 0.0 < s.pageViews then
    ["high website engagement (" ++ Layout.plain.write s.pageViews ++ " page views)"]
   else []) ++
  (if 0.0 < s.downloads then
    ["interest in resources (" ++ Layout.plain.write s.downloads ++ " downloads)"]
   else []) ++
  (if s.webinarAttended then ["participation in a recent webinar"] else []) ++
  (s.companySize.map fun size => "company size: " ++ size).toList ++
  (s.industry.map fun industry => "industry: " ++ industry).toList

/-- The reasoning: the drivers of the score, otherwise what is known, otherwise a stock
sentence. -/
def reasoningOf (s : Signals) (result : Scored Float) : String :=
  let drivers := result.explanation.filterMap fun entry =>
    if 0.0 < entry.impact then driverPhrase? s entry.feature else none
  let known := knownPhrases s
  if !drivers.isEmpty then "This score reflects " ++ Text.joined ", " drivers ++ "."
  else if !known.isEmpty then "Score is based on " ++ Text.joined ", " known ++ "."
  else "Score is based on available engagement and company attributes."

/-- The next action for a tier, with remarks that the signals suggest. -/
def actionOf (s : Signals) : Tier → String
  | .hot =>
    "Assign to a senior SDR for immediate follow-up. Consider a personalized demo or proposal." ++
      (if s.webinarAttended then " Leverage their recent webinar attendance." else "") ++
      (if 2.0 < s.downloads then " Highlight downloaded resources in outreach." else "")
  | .warm =>
    "Nurture with targeted content and schedule a discovery call." ++
      (if 5.0 < s.pageViews then " Reference their high website engagement." else "")
  | .cold =>
    "Add to a long-term nurture campaign and monitor for future engagement." ++
      (if s.pageViews == 0.0 && s.downloads == 0.0 then " Encourage initial engagement." else "")

/-- The assessment of a scored lead. -/
def build (lead : Lead) (result : Scored Float) (thresholds : TierThresholds) : Assessment :=
  let s := Signals.ofLead lead
  let tier := Tier.ofScore result.score thresholds
  { intentScore := intentScoreOf result.score
    tier := tier
    insights := insightsOf s result
    reasoning := reasoningOf s result
    recommendedAction := actionOf s tier }

/-- The assessment as a JSON value. -/
def toJson (a : Assessment) : Value :=
  .object
    [("intentScore", Json.ofNat a.intentScore), ("tier", .string a.tier.name),
     ("insights", .array (a.insights.map Json.string)), ("reasoning", .string a.reasoning),
     ("recommendedAction", .string a.recommendedAction)]

end Assessment

end LeadScoring
