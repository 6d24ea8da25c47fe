import LeadScoring.Scalar
import LeadScoring.Lead.Signals

/-!
# Explanations of a score

A score comes with the impacts of named features or signals.  Two producers need no model: the
table of signal impacts that accompanies a model's score, and the rules that score a lead when no
model can.

Main definitions:

- `Impact`, `Scored`: an impact, and a score with its impacts.
- `topByMagnitude`: the impacts that weigh most.
- `signalImpacts`: five signals in a fixed order with their fixed impacts.
- `ruleScore`: the score by rules alone.
-/

namespace LeadScoring

/-- The contribution of a feature or signal to a score. -/
structure Impact (α : Type) where
  feature : String
  impact : α
deriving DecidableEq, Repr

/-- A score with the impacts that explain it. -/
structure Scored (α : Type) where
  score : α
  explanation : List (Impact α)
deriving DecidableEq, Repr

variable {α : Type} [Scalar α]

/-- Whether the first of two impacts stands before the second when the larger magnitude comes
first. -/
def Impact.outweighs (a b : Impact α) : Bool :=
  Scalar.totalLe (Scalar.magnitude b.impact) (Scalar.magnitude a.impact)

/-- The `k` impacts of largest magnitude, those of equal magnitude in the order given. -/
def topByMagnitude (impacts : List (Impact α)) (k : Nat) : List (Impact α) :=
  (impacts.mergeSort Impact.outweighs).take k

namespace Scored

omit [Scalar α] in
/-- An impact as a JSON value. -/
def impactToJson (entry : Impact α) : Json α :=
  .object [("feature", .string entry.feature), ("impact", Json.ofFraction entry.impact)]

omit [Scalar α] in
/-- The members of the score as a JSON object. -/
def members (result : Scored α) : List (String × Json α) :=
  [("score", Json.ofFraction result.score),
   ("explanation", .array (result.explanation.map impactToJson))]

omit [Scalar α] in
/-- The score as a JSON value. -/
def toJson (result : Scored α) : Json α :=
  .object result.members

end Scored

/-! ## Impacts of the signals -/

/-- The impact of page views. -/
def pageViewsImpact (views : Float) : α :=
  if 10.0 < views then 0.2 else if 5.0 < views then 0.1 else 0

/-- The impact of downloads. -/
def downloadsImpact (downloads : Float) : α :=
  if 2.0 < downloads then 0.2 else if 0.0 < downloads then 0.1 else 0

/-- The impact of an attended webinar. -/
def webinarImpact (attended : Bool) : α :=
  if attended then 0.15 else 0

/-- The impact of the company's size. -/
def sizeImpact : SizeTier → α
  | .enterprise => 0.1
  | .midMarket => 0.05
  | .other => 0

/-- The impact of the industry. -/
def industryImpact (highValue : Bool) : α :=
  if highValue then 0.1 else 0

/-- The impact of the title, which no explanation lists. -/
def titleImpact (senior : Bool) : α :=
  if senior then 0.1 else 0

/-- The impacts of the five listed signals, the webinar under the given label. -/
def impactsLabelled (webinarLabel : String) (s : Signals) : List (Impact α) :=
  [⟨"Page Views", pageViewsImpact s.pageViews⟩,
   ⟨"Downloads", downloadsImpact s.downloads⟩,
   ⟨webinarLabel, webinarImpact s.webinarAttended⟩,
   ⟨"Company Size", sizeImpact s.sizeTier⟩,
   ⟨"Industry", industryImpact s.hasHighValueIndustry⟩]

/-- The explanation that accompanies a model's score. -/
def signalImpacts (s : Signals) : List (Impact α) :=
  impactsLabelled "Webinar Attended" s

/-! ## Scoring by rules -/

/-- The rules' score before it is capped. -/
def uncappedRuleScore (s : Signals) : α :=
  0.3 + pageViewsImpact s.pageViews + downloadsImpact s.downloads +
    webinarImpact s.webinarAttended + sizeImpact s.sizeTier +
    industryImpact s.hasHighValueIndustry + titleImpact s.hasSeniorTitle

/-- The score of a lead by its signals alone, at most one, with its explanation. -/
def ruleScore (lead : Lead) : Scored α :=
  let s := Signals.ofLead lead
  ⟨Scalar.capAtOne (uncappedRuleScore s), impactsLabelled "Webinar Attendance" s⟩

end LeadScoring
