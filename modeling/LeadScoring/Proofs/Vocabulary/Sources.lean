import LeadScoring.Proofs.Vocabulary.Columns
import LeadScoring.Proofs.Vocabulary.Readings
import LeadScoring.Proofs.Vocabulary.Written
import Mathlib.Data.Set.Card

/-!
# Sources of inputs

An input stands for a column of numbers or flags or for a category of another column, but it is known
by its name only.  The name of a category is glued together from its column, an underscore and its
text, and where this is also the name of another source the two share one input.  Inputs are told
apart exactly if none reads as a category of a column that it does not come from.

Main results:

- Definition `Source` and theorem `Source.input_eq_iff`: when two sources have the same input.
- Definition `Vocabulary.IsSource` and theorem `Vocabulary.mem_names_derive`: the sources of a table
  are what its inputs stand for.
- Definition `Vocabulary.OwnSlots`: sources that do not share inputs, neither in the vocabulary nor
  when leads are encoded.
- Theorem `Vocabulary.ownSlots_iff`: the tables whose sources do not share inputs.
- Theorem `Vocabulary.not_ownSlots_plans`: a table whose sources do.
-/

namespace LeadScoring

/-! ## Names of inputs -/

/-- What an input stands for: a column, or a category of a column. -/
inductive Source where
  | column (name : String)
  | category (name text : String)
deriving DecidableEq

namespace Source

/-- The column that a source comes from. -/
def owner : Source → String
  | column name => name
  | category name _ => name

/-- The name of the input for a source. -/
def input : Source → String
  | column name => name
  | category name text => name ++ "_" ++ text

/-- A category has the same input as a source whose column begins with the category's own column, an
underscore and the beginning of the category. -/
inductive Shadows : Source → Source → Prop
  | column (name rest : String) :
      Shadows (category name rest) (column (name ++ "_" ++ rest))
  | category (name rest text : String) :
      Shadows (category name (rest ++ "_" ++ text)) (category (name ++ "_" ++ rest) text)

variable {s t : Source}

/-- A source has the input of the one that it shadows. -/
theorem Shadows.input_eq (h : s.Shadows t) : s.input = t.input := by
  cases h with
  | column name rest => rfl
  | category name rest text => simp only [input, String.append_assoc]

/-- A category shadows sources of columns that begin with its own column and an underscore. -/
theorem Shadows.exists_owner (h : s.Shadows t) :
    (∃ rest, t.owner = s.owner ++ "_" ++ rest) ∧ ∃ text, s = .category s.owner text := by
  cases h with
  | column name rest => exact ⟨⟨rest, rfl⟩, rest, rfl⟩
  | category name rest text => exact ⟨⟨rest, rfl⟩, _, rfl⟩

/-- A source belongs to another column than the one that it shadows. -/
theorem Shadows.owner_ne (h : s.Shadows t) : s.owner ≠ t.owner := by
  intro heq
  obtain ⟨⟨rest, hrest⟩, -⟩ := h.exists_owner
  have hlength := congrArg String.length (heq.trans hrest)
  have hunderscore : "_".length = 1 := rfl
  simp only [String.length_append] at hlength
  omega

/-- Of two categories with one input, the one with the shorter column shadows the other. -/
theorem eq_or_shadows {name other text more : String} {part : List Char}
    (hname : other.toList = name.toList ++ part)
    (htext : '_' :: text.toList = part ++ '_' :: more.toList) :
    category name text = category other more ∨
      (category name text).Shadows (category other more) := by
  cases part with
  | nil =>
    rw [List.append_nil, String.toList_inj] at hname
    rw [List.nil_append, List.cons.injEq, String.toList_inj] at htext
    exact Or.inl (by rw [hname, htext.2])
  | cons c rest =>
    obtain ⟨rfl, hrest⟩ := List.cons.inj htext
    obtain rfl : other = name ++ "_" ++ String.ofList rest := by
      rw [← String.toList_inj, hname]
      simp
    obtain rfl : text = String.ofList rest ++ "_" ++ more := by
      rw [← String.toList_inj, hrest]
      simp
    exact Or.inr (.category name (String.ofList rest) more)

/-- Two sources have the same input exactly if one shadows the other. -/
theorem input_eq_iff : s.input = t.input ↔ s = t ∨ s.Shadows t ∨ t.Shadows s := by
  constructor
  · intro h
    cases s with
    | column name =>
      cases t with
      | column other =>
        obtain rfl : name = other := h
        exact Or.inl rfl
      | category other text =>
        obtain rfl : name = other ++ "_" ++ text := h
        exact Or.inr (Or.inr (.column other text))
    | category name text =>
      cases t with
      | column other =>
        obtain rfl : name ++ "_" ++ text = other := h
        exact Or.inr (Or.inl (.column name text))
      | category other more =>
        have hchars : name.toList ++ '_' :: text.toList = other.toList ++ '_' :: more.toList := by
          simpa [input] using congrArg String.toList h
        rcases List.append_eq_append_iff.1 hchars with ⟨part, hpart, htail⟩ | ⟨part, hpart, htail⟩
        · exact (eq_or_shadows hpart htail).imp_right Or.inl
        · exact (eq_or_shadows hpart htail).imp Eq.symm Or.inr
  · rintro (rfl | h | h)
    · rfl
    · exact h.input_eq
    · exact h.input_eq.symm

/-- The sources of one column have different inputs. -/
theorem eq_of_owner_eq (howner : s.owner = t.owner) (hinput : s.input = t.input) : s = t := by
  rcases input_eq_iff.1 hinput with h | h | h
  · exact h
  · exact absurd howner h.owner_ne
  · exact absurd howner.symm h.owner_ne

end Source

namespace Vocabulary

variable {header : List String} {rows : List (List String)} {schema : Schema}

/-! ## Sources of a table -/

/-- What the inputs of a table may stand for: its retained columns of numbers or flags, and the
texts of its other retained columns. -/
inductive IsSource (header : List String) (rows : List (List String)) (schema : Schema) :
    Source → Prop
  | column {i : ℕ} {name : String} {kind : FieldKind} (column : header[i]? = some name)
      (visible : schema.IsVisible name) (hasKind : HasKind schema rows i name kind)
      (direct : kind ≠ .categorical) : IsSource header rows schema (.column name)
  | category {i : ℕ} {name text : String} (column : header[i]? = some name)
      (visible : schema.IsVisible name) (hasKind : HasKind schema rows i name .categorical)
      (holds : HoldsText rows i text) : IsSource header rows schema (.category name text)

/-- The names of a derived vocabulary are the inputs of the sources. -/
theorem mem_names_derive {name : String} :
    name ∈ (derive header rows schema).names ↔ ∃ s, IsSource header rows schema s ∧
      s.input = name := by
  simp only [derive, ofNames, mem_firstOccurrences, List.mem_append, List.mem_flatMap,
    mem_retained]
  constructor
  · rintro (⟨_, ⟨i, column, hi, hvisible, rfl⟩, hname⟩ | ⟨_, ⟨i, column, hi, hvisible, rfl⟩, hname⟩)
    · rw [directInputs, name_fieldOfColumn] at hname
      split_ifs at hname with hkind
      · cases hname
      · rw [List.mem_singleton.1 hname]
        exact ⟨_, .column hi hvisible (hasKind_iff.2 rfl) hkind, rfl⟩
    · rw [indicatorInputs] at hname
      split_ifs at hname with hkind
      · obtain ⟨text, htext, rfl⟩ := List.mem_map.1 hname
        rw [mem_distinctSorted, mem_filledCells] at htext
        rw [Field.indicator, name_fieldOfColumn]
        exact ⟨_, .category hi hvisible (hasKind_iff.2 hkind) htext, rfl⟩
      · cases hname
  · rintro ⟨s, hs, rfl⟩
    cases hs with
    | @column i name kind hi hvisible hkind hdirect =>
      left
      refine ⟨_, ⟨i, name, hi, hvisible, rfl⟩, ?_⟩
      rw [directInputs, hasKind_iff.1 hkind, if_neg hdirect, name_fieldOfColumn]
      exact List.mem_singleton.2 rfl
    | @category i name text hi hvisible hkind hholds =>
      right
      refine ⟨_, ⟨i, name, hi, hvisible, rfl⟩, ?_⟩
      rw [indicatorInputs, if_pos (hasKind_iff.1 hkind)]
      refine List.mem_map.2 ⟨text, ?_, ?_⟩
      · rw [mem_distinctSorted, mem_filledCells]
        exact hholds
      · rw [Field.indicator, name_fieldOfColumn]
        rfl

/-- A source has a field, and the field of a category is categorical. -/
theorem IsSource.exists_field {s : Source} (h : IsSource header rows schema s) :
    ∃ f ∈ (derive header rows schema).fields, f.name = s.owner ∧
      ∀ text, s = .category s.owner text → f.kind = .categorical := by
  cases h with
  | @column i name kind hi hvisible hkind hdirect =>
    exact ⟨_, mem_fields_derive.2 ⟨i, name, hi, hvisible, rfl⟩, name_fieldOfColumn _ _ _,
      fun text heq => nomatch heq⟩
  | @category i name text hi hvisible hkind hholds =>
    exact ⟨_, mem_fields_derive.2 ⟨i, name, hi, hvisible, rfl⟩, name_fieldOfColumn _ _ _,
      fun _ _ => hasKind_iff.1 hkind⟩

/-- The name of a field that is not categorical is a source. -/
theorem isSource_column {f : Field} (hf : f ∈ (derive header rows schema).fields)
    (hkind : f.kind ≠ .categorical) : IsSource header rows schema (.column f.name) := by
  obtain ⟨i, name, hi, hvisible, rfl⟩ := mem_fields_derive.1 hf
  rw [name_fieldOfColumn]
  exact .column hi hvisible (hasKind_iff.2 rfl) hkind

/-- Fields of different columns have different names. -/
theorem field_eq_of_name_eq (h : header.Nodup) {f g : Field}
    (hf : f ∈ (derive header rows schema).fields) (hg : g ∈ (derive header rows schema).fields)
    (hname : f.name = g.name) : f = g := by
  obtain ⟨i, column, hi, -, rfl⟩ := mem_fields_derive.1 hf
  obtain ⟨j, other, hj, -, rfl⟩ := mem_fields_derive.1 hg
  rw [name_fieldOfColumn, name_fieldOfColumn] at hname
  subst hname
  obtain ⟨hi', -⟩ := List.getElem?_eq_some_iff.1 hi
  rw [(List.getElem?_inj hi' h).1 (hi.trans hj.symm)]

/-! ## Numbers of sources -/

/-- The retained columns of numbers or flags. -/
def columnSources (header : List String) (rows : List (List String)) (schema : Schema) :
    Set String :=
  {name | IsSource header rows schema (.column name)}

/-- The texts of the other retained columns, each with its column. -/
def categorySources (header : List String) (rows : List (List String)) (schema : Schema) :
    Set (String × String) :=
  {pair | IsSource header rows schema (.category pair.1 pair.2)}

theorem finite_columnSources : (columnSources header rows schema).Finite := by
  refine header.toFinset.finite_toSet.subset fun name h => ?_
  cases h with
  | column hi => exact List.mem_toFinset.2 (List.mem_of_getElem? hi)

theorem finite_categorySources : (categorySources header rows schema).Finite := by
  refine (header.toFinset ×ˢ (rows.flatten.map Text.trim).toFinset).finite_toSet.subset ?_
  rintro ⟨name, text⟩ h
  cases h with
  | category hi _ _ holds =>
    obtain ⟨-, row, hrow, cell, hcell, htrim⟩ := holds
    refine Finset.mem_product.2 ⟨List.mem_toFinset.2 (List.mem_of_getElem? hi), ?_⟩
    exact List.mem_toFinset.2 (List.mem_map.2
      ⟨cell, List.mem_flatten.2 ⟨row, hrow, List.mem_of_getElem? hcell⟩, htrim⟩)

/-- The sources are the columns and the categories. -/
theorem setOf_isSource : {s | IsSource header rows schema s} =
    Source.column '' columnSources header rows schema ∪
      (fun pair => Source.category pair.1 pair.2) '' categorySources header rows schema := by
  ext s
  cases s with
  | column name => simp [columnSources]
  | category column text => simp [categorySources]

theorem finite_sources : {s | IsSource header rows schema s}.Finite := by
  rw [setOf_isSource]
  exact (finite_columnSources.image _).union (finite_categorySources.image _)

/-- The sources are the retained columns of numbers and flags and the texts of the others. -/
theorem ncard_sources : {s | IsSource header rows schema s}.ncard =
    (columnSources header rows schema).ncard + (categorySources header rows schema).ncard := by
  rw [setOf_isSource, Set.ncard_union_eq _ (finite_columnSources.image _)
    (finite_categorySources.image _), Set.ncard_image_of_injective, Set.ncard_image_of_injective]
  · rintro ⟨column, text⟩ ⟨other, more⟩ heq
    cases heq
    rfl
  · intro name other heq
    cases heq
    rfl
  · rw [Set.disjoint_left]
    rintro _ ⟨name, -, rfl⟩ ⟨pair, -, heq⟩
    cases heq

/-- There are as many inputs as sources exactly if no source shadows another. -/
theorem size_derive_eq_iff : (derive header rows schema).size =
    (columnSources header rows schema).ncard + (categorySources header rows schema).ncard ↔
      ∀ s t, IsSource header rows schema s → IsSource header rows schema t → ¬ s.Shadows t := by
  have hsize : (derive header rows schema).size =
      (Source.input '' {s | IsSource header rows schema s}).ncard := by
    have himage : Source.input '' {s | IsSource header rows schema s} =
        ((derive header rows schema).names.toFinset : Set String) := by
      ext name
      simp [mem_names_derive]
    rw [himage, Set.ncard_coe_finset, List.toFinset_card_of_nodup (derive header rows schema).nodup,
      size]
  rw [hsize, ← ncard_sources, Set.ncard_image_iff finite_sources]
  constructor
  · intro hinj s t hs ht hshadows
    have heq : s = t := hinj hs ht hshadows.input_eq
    exact hshadows.owner_ne (congrArg Source.owner heq)
  · intro hnone s hs t ht hinput
    rcases Source.input_eq_iff.1 hinput with h | h | h
    · exact h
    · exact absurd h (hnone s t hs ht)
    · exact absurd h (hnone t s ht hs)

/-! ## Inputs of their own -/

/-- No two sources of a table share an input: each has one of its own, there are as many inputs as
retained columns of numbers or flags and categories of the others together, and when a lead is
encoded no column writes an input of another, so that every input has the value that its own column
writes, zero if this writes none. -/
structure OwnSlots (header : List String) (rows : List (List String)) (schema : Schema) : Prop where
  listed : ∀ s, IsSource header rows schema s → s.input ∈ (derive header rows schema).names
  distinct : ∀ s t, IsSource header rows schema s → IsSource header rows schema t →
    s.input = t.input → s = t
  size_eq : (derive header rows schema).size =
    (columnSources header rows schema).ncard + (categorySources header rows schema).ncard
  written : ∀ (lead : Lead) (s : Source), IsSource header rows schema s →
    ∀ f ∈ (derive header rows schema).fields, ∀ x : Float,
      entry? lead f = some (s.input, x) → f.name = s.owner
  kept : ∀ (lead : Lead) (s : Source), IsSource header rows schema s →
    ∀ f ∈ (derive header rows schema).fields, f.name = s.owner →
      let v := derive header rows schema
      (∀ x : Float, entry? lead f = some (s.input, x) →
        v.get? (v.encode lead) s.input = some x) ∧
      ((∀ x : Float, entry? lead f ≠ some (s.input, x)) →
        v.get? (v.encode lead) s.input = some (0 : Float))

/-- No input reads as a category of a column that it does not come from. -/
def Unmistakable (header : List String) (rows : List (List String)) (schema : Schema) : Prop :=
  ∀ f ∈ (derive header rows schema).fields, f.kind = .categorical →
    ∀ s, IsSource header rows schema s → ∀ category, category ≠ "" →
      Text.trim category = category → s.input = f.indicator category → s.owner = f.name

/-- No retained column's name begins with that of a categorical one and an underscore. -/
def Apart (header : List String) (rows : List (List String)) (schema : Schema) : Prop :=
  ∀ f ∈ (derive header rows schema).fields, f.kind = .categorical →
    ∀ g ∈ (derive header rows schema).fields,
      ¬ f.name.toList ++ ['_'] <+: g.name.toList

instance (header : List String) (rows : List (List String)) (schema : Schema) :
    Decidable (Apart header rows schema) :=
  inferInstanceAs (Decidable (∀ f ∈ (derive header rows schema).fields, f.kind = .categorical →
    ∀ g ∈ (derive header rows schema).fields, ¬ f.name.toList ++ ['_'] <+: g.name.toList))

/-- Columns whose names do not begin alike have unmistakable inputs. -/
theorem Apart.unmistakable (h : Apart header rows schema) : Unmistakable header rows schema := by
  have hstart : ∀ f ∈ (derive header rows schema).fields, f.kind = .categorical →
      ∀ g ∈ (derive header rows schema).fields, ∀ rest, g.name ≠ f.name ++ "_" ++ rest := by
    intro f hf hkind g hg rest hname
    refine h f hf hkind g hg ⟨rest.toList, ?_⟩
    rw [hname]
    simp
  intro f hf hkind s hs category _ _ hinput
  obtain ⟨g, hg, hgname, hgkind⟩ := hs.exists_field
  have hshared : s.input = (Source.category f.name category).input := hinput
  rcases Source.input_eq_iff.1 hshared with heq | hshadows | hshadows
  · rw [heq]
    rfl
  · obtain ⟨⟨rest, hrest⟩, text, htext⟩ := hshadows.exists_owner
    exact absurd (hgname ▸ hrest) (hstart g hg (hgkind text htext) f hf rest)
  · obtain ⟨⟨rest, hrest⟩, -⟩ := hshadows.exists_owner
    exact absurd (hgname.trans hrest) (hstart f hf hkind g hg rest)

namespace Unmistakable

variable (h : Unmistakable header rows schema)

include h

/-- An input that is a category of some column comes from this column only. -/
theorem owner_eq_of_category {s : Source} {name text : String}
    (hcategory : IsSource header rows schema (.category name text))
    (hs : IsSource header rows schema s) (hinput : s.input = name ++ "_" ++ text) :
    s.owner = name := by
  obtain ⟨f, hf, hname, hkind⟩ := hcategory.exists_field
  obtain rfl : f.name = name := hname
  cases hcategory with
  | category _ _ _ holds =>
    exact h f hf (hkind text rfl) s hs text holds.1 holds.trim_eq hinput

/-- In an unmistakable table sources with one input are one source. -/
theorem eq_of_input_eq {s t : Source} (hs : IsSource header rows schema s)
    (ht : IsSource header rows schema t) (hinput : s.input = t.input) : s = t := by
  refine Source.eq_of_owner_eq ?_ hinput
  cases s with
  | category name text => exact (h.owner_eq_of_category hs ht hinput.symm).symm
  | column name =>
    cases t with
    | category other text => exact h.owner_eq_of_category ht hs hinput
    | column other => exact hinput

/-- Encoding a column writes no input of another. -/
theorem name_eq_of_entry {lead : Lead} {s : Source} (hs : IsSource header rows schema s)
    {f : Field} (hf : f ∈ (derive header rows schema).fields) {x : Float}
    (hentry : entry? lead f = some (s.input, x)) : f.name = s.owner := by
  by_cases hkind : f.kind = .categorical
  · obtain ⟨text, htext, hinput⟩ := (exists_entry?_iff_of_categorical hkind).1 ⟨x, hentry⟩
    obtain ⟨hne, htrim⟩ := (Lead.exists_text?_iff f.name_mem_lookupKeys).1 ⟨lead, htext⟩
    exact (h f hf hkind s hs text hne htrim hinput).symm
  · have hinput : s.input = f.name := (exists_entry?_iff_of_ne hkind).1 ⟨x, hentry⟩
    have heq : s = .column f.name := h.eq_of_input_eq hs (isSource_column hf hkind) hinput
    rw [heq]
    rfl

/-- In an unmistakable table every source has its own slot. -/
theorem ownSlots (hheader : header.Nodup) : OwnSlots header rows schema where
  listed s hs := mem_names_derive.2 ⟨s, hs, rfl⟩
  distinct _ _ hs ht := h.eq_of_input_eq hs ht
  size_eq := by
    rw [size_derive_eq_iff]
    intro s t hs ht hshadows
    exact hshadows.owner_ne (congrArg Source.owner (h.eq_of_input_eq hs ht hshadows.input_eq))
  written _ _ hs _ hf _ hentry := h.name_eq_of_entry hs hf hentry
  kept lead s hs f hf hname := by
    have hlisted := mem_names_derive.2 ⟨s, hs, rfl⟩
    have honly : ∀ g ∈ (derive header rows schema).fields, ∀ y : Float,
        entry? lead g = some (s.input, y) → g = f := by
      intro g hg y hentry
      exact field_eq_of_name_eq hheader hg hf ((h.name_eq_of_entry hs hg hentry).trans hname.symm)
    refine ⟨fun x hentry => get?_encode_of_entry hf hlisted hentry honly, fun hnone => ?_⟩
    refine get?_encode_of_forall_ne hlisted fun g hg y hentry => ?_
    obtain rfl := honly g hg y hentry
    exact hnone y hentry

end Unmistakable

/-- Where columns do not write inputs of each other, no input reads as a category of another
column: some lead holds this category. -/
theorem OwnSlots.unmistakable (h : OwnSlots header rows schema) :
    Unmistakable header rows schema := by
  intro f hf hkind s hs category hne htrim hinput
  have htext := Lead.text?_holding f.name_mem_lookupKeys hne htrim
  obtain ⟨x, hentry⟩ := (exists_entry?_iff_of_categorical (α := Float) hkind).2
    ⟨category, htext, hinput⟩
  exact (h.written _ s hs f hf x hentry).symm

/-- The inputs of a table with distinct columns are those of its sources, and there are as many as
sources exactly if no source shadows another.  No two sources share an input, neither in the
vocabulary nor when leads are encoded, exactly if no input reads as a category of a column that it
does not come from; that no column's name begins with that of a categorical one and an underscore is
enough for this. -/
theorem ownSlots_iff (h : header.Nodup) :
    (∀ name, name ∈ (derive header rows schema).names ↔
      ∃ s, IsSource header rows schema s ∧ s.input = name) ∧
    ((derive header rows schema).size =
        (columnSources header rows schema).ncard + (categorySources header rows schema).ncard ↔
      ∀ s t, IsSource header rows schema s → IsSource header rows schema t → ¬ s.Shadows t) ∧
    (OwnSlots header rows schema ↔ Unmistakable header rows schema) ∧
    (Apart header rows schema → OwnSlots header rows schema) :=
  ⟨fun _ => mem_names_derive, size_derive_eq_iff,
    ⟨OwnSlots.unmistakable, fun hunmistakable => hunmistakable.ownSlots h⟩,
    fun hapart => hapart.unmistakable.ownSlots h⟩

/-- Two columns whose names begin alike, with a row that is too short and one that is blank. -/
def seatsRows : List (List String) :=
  [["Pro", "3"], [" Basic "], [" ", ""], ["Pro", "5"]]

/-- A table of plans and seats, in which every source has its own slot. -/
theorem ownSlots_iff_seats :
    ["Plan", "Planned Seats"].Nodup ∧ Apart ["Plan", "Planned Seats"] seatsRows .standard ∧
      OwnSlots ["Plan", "Planned Seats"] seatsRows .standard ∧
      (derive ["Plan", "Planned Seats"] seatsRows .standard).names =
        ["Planned Seats", "Plan_Basic", "Plan_Pro"] := by
  have hheader : ["Plan", "Planned Seats"].Nodup := by decide
  have hapart : Apart ["Plan", "Planned Seats"] seatsRows .standard := by decide +kernel
  exact ⟨hheader, hapart, (ownSlots_iff hheader).2.2.2 hapart, by decide +kernel⟩

/-- A table with a category that shadows a column. -/
def plansRows : List (List String) :=
  [["3", "Pro"], ["5", "Basic"]]

/-- The column of the professional plans and the professional category of the plans share an input,
so there are three sources and two inputs, and the category overwrites what the column has written. -/
theorem not_ownSlots_plans :
    ["Plan_Pro", "Plan"].Nodup ∧ ¬ OwnSlots ["Plan_Pro", "Plan"] plansRows .standard ∧
      let v := derive ["Plan_Pro", "Plan"] plansRows .standard
      v.names = ["Plan_Pro", "Plan_Basic"] ∧
        v.get? (v.encode ⟨[("Plan", .string "Pro"), ("Plan_Pro", .number (.int 7))]⟩) "Plan_Pro" =
          some (1.0 : Float) := by
  have hcolumn : IsSource ["Plan_Pro", "Plan"] plansRows .standard (.column "Plan_Pro") := by
    have hkind : HasKind .standard plansRows 0 "Plan_Pro" .numeric := by decide +kernel
    exact .column rfl (by decide) hkind (by decide)
  have hcategory : IsSource ["Plan_Pro", "Plan"] plansRows .standard (.category "Plan" "Pro") := by
    have hkind : HasKind .standard plansRows 1 "Plan" .categorical := by decide +kernel
    have hholds : HoldsText plansRows 1 "Pro" :=
      ⟨by decide, ["3", "Pro"], by decide, "Pro", rfl, by decide⟩
    exact .category rfl (by decide) hkind hholds
  have hshadows : (Source.category "Plan" "Pro").Shadows (.column "Plan_Pro") :=
    .column "Plan" "Pro"
  refine ⟨by decide, fun h => ?_, by decide +kernel, by decide +kernel⟩
  exact nomatch h.distinct _ _ hcategory hcolumn hshadows.input_eq

end Vocabulary

end LeadScoring
