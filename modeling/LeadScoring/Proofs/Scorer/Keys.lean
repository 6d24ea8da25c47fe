import LeadScoring.Proofs.Lead.Lookup
import LeadScoring.Scorer

/-!
# The keys that decide a score

A lead may carry anything.  The rules read it under the keys of the standard facts, and a model
under the keys of its fields as well; a blank value is read as none.  Whatever else a lead holds
decides nothing: neither the score, nor its explanation, nor who answers.

Main results:

- Definition `Engine.keys`: the keys that an engine looks up.
- Theorem `Signals.ofLead_eq_of_holdAlike`: the signals read the standard keys only.
- Theorem `Engine.score_eq_of_holdAlike`: a score reads the keys of the engine only.
- Theorem `Engine.score_without`: entries that may be left out of a lead.
-/

namespace LeadScoring

/-! ## Signals -/

/-- The standard facts. -/
def StandardKey.all : List StandardKey :=
  [.title, .industry, .companySize, .pageViews, .downloads, .webinarAttended]

/-- The keys under which the rules look for the standard facts. -/
def Signals.keys : List String :=
  StandardKey.all.flatMap StandardKey.keys

/-- The keys of every standard fact are among those of the signals. -/
theorem Signals.mem_keys {fact : StandardKey} (hfact : fact ∈ StandardKey.all) {key : String}
    (hkey : key ∈ fact.keys) : key ∈ Signals.keys :=
  List.mem_flatMap.2 ⟨fact, hfact, hkey⟩

variable {visible : String → Prop} {first second : Lead}

/-- The signals read the standard keys only. -/
theorem Signals.ofLead_eq_of_holdAlike (h : Lead.HoldAlike visible first second)
    (hkeys : ∀ key ∈ Signals.keys, visible key) : Signals.ofLead first = Signals.ofLead second := by
  have hfact : ∀ fact ∈ StandardKey.all, ∀ key ∈ fact.keys, visible key :=
    fun fact hfact key hkey => hkeys key (Signals.mem_keys hfact hkey)
  unfold Signals.ofLead
  rw [h.number_eq (hfact .pageViews (by decide)), h.number_eq (hfact .downloads (by decide)),
    h.flag_eq (hfact .webinarAttended (by decide)), h.text?_eq (hfact .companySize (by decide)),
    h.text?_eq (hfact .industry (by decide)), h.text?_eq (hfact .title (by decide))]

/-! ## Engines -/

variable {α : Type} [Scalar α]

/-- The rules read the standard keys only. -/
theorem ruleScore_eq_of_holdAlike (h : Lead.HoldAlike visible first second)
    (hkeys : ∀ key ∈ Signals.keys, visible key) :
    (ruleScore first : Scored α) = ruleScore second := by
  unfold ruleScore
  rw [Signals.ofLead_eq_of_holdAlike h hkeys]

omit [Scalar α] in
/-- The keys that a vocabulary looks up. -/
def Vocabulary.keys (v : Vocabulary) : List String :=
  v.fields.flatMap Field.lookupKeys

/-- A model reads the keys of its fields and the standard ones. -/
theorem Scorer.score_eq_of_holdAlike {s : Scorer α} (h : Lead.HoldAlike visible first second)
    (hstandard : ∀ key ∈ Signals.keys, visible key)
    (hfields : ∀ key ∈ s.vocabulary.keys, visible key) : s.score first = s.score second := by
  have hencode : (s.vocabulary.encode first : Array α) = s.vocabulary.encode second := by
    apply Vocabulary.encode_eq_of_holdAlike h
    intro f hf key hkey
    exact hfields key (List.mem_flatMap.2 ⟨f, hf, hkey⟩)
  unfold Scorer.score
  rw [hencode, Signals.ofLead_eq_of_holdAlike h hstandard]

namespace Engine

omit [Scalar α] in
/-- The keys that an engine looks up: the standard ones, and those of its model's fields. -/
def keys (e : Engine α) : List String :=
  Signals.keys ++
    match e.scorer with
    | some scorer => scorer.vocabulary.keys
    | none => []

/-- Leads that hold the same under the keys of an engine have the same score. -/
theorem score_eq_of_holdAlike {e : Engine α}
    (h : Lead.HoldAlike (fun key => key ∈ e.keys) first second) :
    e.score first = e.score second := by
  have hstandard : ∀ key ∈ Signals.keys, key ∈ e.keys :=
    fun key hkey => List.mem_append_left _ hkey
  have hrules : (ruleScore first : Scored α) = ruleScore second :=
    ruleScore_eq_of_holdAlike h hstandard
  unfold score
  cases hscorer : e.scorer with
  | none => rw [hrules]
  | some scorer =>
    have hfields : ∀ key ∈ scorer.vocabulary.keys, key ∈ e.keys := by
      intro key hkey
      simp [keys, hscorer, hkey]
    dsimp only
    rw [hrules, Scorer.score_eq_of_holdAlike h hstandard hfields]

/-- Entries of a lead may be left out if their keys are none that the engine looks up or if their
values are blank; the score, its explanation and its source stay.  In particular, however many blank
values stand under the keys before it, a value that is not blank is found. -/
theorem score_without (e : Engine α) (lead : Lead) :
    (∀ removed : String → Bool,
        (∀ key, removed key = true →
          key ∉ e.keys ∨ ∀ v, lead.get? key = some v → v.isBlank = true) →
        e.score (lead.without removed) = e.score lead) ∧
      ∀ (before after : List String) (key : String) (value : Value),
        (∀ k ∈ before, ∀ v, lead.get? k = some v → v.isBlank = true) →
        lead.get? key = some value → value.isBlank = false →
        lead.lookup? (before ++ key :: after) = some value := by
  constructor
  · intro removed hremoved
    apply score_eq_of_holdAlike
    apply Lead.holdAlike_without
    intro key hkey
    rw [Lead.held?_eq_none_iff]
    exact hremoved key hkey
  · intro before after key value hbefore hget hvalue
    apply Lead.lookup?_append_cons
    · intro k hk
      exact Lead.held?_eq_none_iff.2 (hbefore k hk)
    · exact Lead.held?_of_get? hget hvalue

/-- An engine over a categorical field with two further keys, one of which is a standard one. -/
def cityEngine : Engine Float where
  scorer := some
    { vocabulary := .ofNames ["City_Paris", "Visits"]
        [⟨"City", .categorical, ["town", "title"]⟩, ⟨"Visits", .numeric, []⟩]
      trees := [⟨#[.split 0 0.5 1 2, .leaf 0.25, .leaf 0.75]⟩] }

/-- A lead with blank values under preferred keys and with a key that no one looks up. -/
def guestLead : Lead where
  entries :=
    [("City", .string "Paris"), ("Downloads", .number (.int 3)), ("downloads", .string " \t"),
     ("nickname", .bool true), ("title", .null), ("town", .string "")]

/-- A lead without its unread keys and its blank ones scores as before. -/
theorem score_without_guestLead :
    (∀ key, ["nickname", "title", "town", "downloads"].contains key = true →
        key ∉ cityEngine.keys ∨ ∀ v, guestLead.get? key = some v → v.isBlank = true) ∧
      cityEngine.score (guestLead.without ["nickname", "title", "town", "downloads"].contains) =
        cityEngine.score guestLead ∧
      (∀ k ∈ ["town", "title"], ∀ v, guestLead.get? k = some v → v.isBlank = true) ∧
      guestLead.get? "City" = some (.string "Paris") ∧
      Value.isBlank (.string "Paris") = false ∧
      guestLead.lookup? ["town", "title", "City"] = some (.string "Paris") := by
  have hremoved : ∀ key, ["nickname", "title", "town", "downloads"].contains key = true →
      key ∉ cityEngine.keys ∨ ∀ v, guestLead.get? key = some v → v.isBlank = true := by
    intro key hkey
    simp only [List.contains_iff_mem, List.mem_cons, List.not_mem_nil, or_false] at hkey
    rcases hkey with rfl | rfl | rfl | rfl
    · left
      decide
    · right
      rintro v ⟨⟩
      rfl
    · right
      rintro v ⟨⟩
      decide
    · right
      rintro v ⟨⟩
      decide
  have hbefore : ∀ k ∈ ["town", "title"], ∀ v, guestLead.get? k = some v → v.isBlank = true := by
    intro k hk v hv
    simp only [List.mem_cons, List.not_mem_nil, or_false] at hk
    rcases hk with rfl | rfl
    · cases hv
      decide
    · cases hv
      rfl
  have hcity : Value.isBlank (.string "Paris") = false := by decide
  exact ⟨hremoved, (score_without cityEngine guestLead).1 _ hremoved, hbefore, rfl, hcity,
    (score_without cityEngine guestLead).2 _ [] "City" _ hbefore rfl hcity⟩

end Engine

end LeadScoring
