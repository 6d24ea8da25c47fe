import LeadScoring.Lead.Basic

/-!
# Business signals of a lead

The six standard facts that the rules look at, each read from a lead under its request key first
and its column name second.
-/

namespace LeadScoring

/-- A standard fact about a lead: its key in requests and its column in exported tables. -/
structure StandardKey where
  request : String
  column : String
deriving DecidableEq, Repr

namespace StandardKey

/-- The contact's job title. -/
def title : StandardKey := ⟨"title", "Title"⟩

/-- The company's industry. -/
def industry : StandardKey := ⟨"industry", "Industry"⟩

/-- The company's size class. -/
def companySize : StandardKey := ⟨"companySize", "Company Size"⟩

/-- The number of page views. -/
def pageViews : StandardKey := ⟨"pageViews", "Page Views"⟩

/-- The number of downloads. -/
def downloads : StandardKey := ⟨"downloads", "Downloads"⟩

/-- Whether a webinar was attended. -/
def webinarAttended : StandardKey := ⟨"webinarAttended", "Webinar Attended"⟩

/-- The keys in the order in which they are tried. -/
def keys (k : StandardKey) : List String :=
  [k.request, k.column]

end StandardKey

/-- The size classes that the rules tell apart. -/
inductive SizeTier where
  | enterprise
  | midMarket
  | other
deriving DecidableEq, Repr

/-- What the rules know about a lead. -/
structure Signals where
  pageViews : Float
  downloads : Float
  webinarAttended : Bool
  companySize : Option String
  industry : Option String
  title : Option String

namespace Signals

/-- The signals of a lead. -/
def ofLead (lead : Lead) : Signals where
  pageViews := lead.number StandardKey.pageViews.keys
  downloads := lead.number StandardKey.downloads.keys
  webinarAttended := lead.flag StandardKey.webinarAttended.keys
  companySize := lead.text? StandardKey.companySize.keys
  industry := lead.text? StandardKey.industry.keys
  title := lead.text? StandardKey.title.keys

/-- The size class, which has to be spelled exactly. -/
def sizeTier (s : Signals) : SizeTier :=
  if s.companySize = some "Enterprise" then .enterprise
  else if s.companySize = some "Mid-Market" then .midMarket
  else .other

/-- The industries that convert best. -/
def highValueIndustries : List String :=
  ["Technology", "Finance", "Healthcare"]

/-- Whether the industry is one that converts best. -/
def hasHighValueIndustry (s : Signals) : Bool :=
  match s.industry with
  | some industry => highValueIndustries.contains industry
  | none => false

/-- Words that mark a senior title. -/
def seniorWords : List String :=
  ["CEO", "CTO", "VP", "Director", "Manager"]

/-- Whether one of the senior words occurs in the title, letter case included. -/
def hasSeniorTitle (s : Signals) : Bool :=
  match s.title with
  | some title => seniorWords.any fun word => Text.occursIn word.toList title.toList
  | none => false

end Signals

end LeadScoring
