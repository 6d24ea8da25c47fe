import LeadScoring.Proofs.Forest.Alternation
import LeadScoring.Proofs.Pipeline
import LeadScoring.Proofs.Table.Expansion
import LeadScoring.Proofs.Table.Splitting
import LeadScoring.Proofs.Vocabulary.Cells

/-!
# More rows than slots can count

The leads of a table differ in their page views, and every second one was converted.  The tree that
is fitted on it is a comb: its splits stand at the even slots, each of them as the right child of
the one before.  With `2 ^ 31` splits the entry for the slot `2 ^ 32` wraps around to the root.  The
artifact is accepted all the same, and a lead with many page views walks in a circle.

Main results:

- Theorem `endless_comb`: a walk down a comb that comes back to the root.
- Definition `viewTable` and theorem `alternates_viewRows`: the table, and the rows that a tree is
  fitted on.
- Theorem `exists_outcome_viewTable`: a training run on the table has an outcome.
- Theorem `score_of_viewTable`: the engine of its artifact scores a lead by the rules.
- Theorem `not_scores_viewTable`: the smallest table of this kind.
-/

namespace LeadScoring

/-! ## Walks down a comb -/

/-- The splits of a comb stand at the even slots from its root on. -/
theorem getElem?_nodesOf_comb (nameOf : ℕ → String) {count i : ℕ} (hi : i < count)
    (first slot : ℕ) :
    (CompiledTree.nodesOf nameOf slot (comb first count))[2 * i]? =
      some (.split (nameOf 0) ((first + i : ℕ) + 1 / 2) (UInt32.ofNat (slot + 2 * i + 1))
        (UInt32.ofNat (slot + 2 * i + 2))) := by
  induction count generalizing first slot i with
  | zero => exact absurd hi (Nat.not_lt_zero i)
  | succ count ih =>
    rw [comb, CompiledTree.nodesOf, CompiledTree.nodesOf, DecisionTree.size]
    cases i with
    | zero => rfl
    | succ i =>
      have hrest := ih (Nat.lt_of_succ_lt_succ hi) (first + 1) (slot + 1 + 1)
      rw [(by omega : first + 1 + i = first + (i + 1)),
        (by omega : slot + 1 + 1 + 2 * i = slot + 2 * (i + 1))] at hrest
      rw [Nat.mul_succ, List.getElem?_cons_succ, List.singleton_append, List.getElem?_cons_succ]
      exact hrest

/-- Where a comb has a split for each even slot below `2 ^ 32`, a vector that goes right at all of
them comes back to the root. -/
theorem endless_comb {nameOf : ℕ → String} {valueOf : String → ℚ} {count : ℕ}
    (hcount : 2 ^ 31 ≤ count) (hright : ∀ i < count, ¬ valueOf (nameOf 0) ≤ (i : ℕ) + 1 / 2) :
    Endless ((CompiledTree.ofTree nameOf (comb 0 count)).move? valueOf) 0 := by
  refine ⟨fun k => 2 * (k % 2 ^ 31), rfl, fun k => ?_⟩
  have hlt : k % 2 ^ 31 < count := (Nat.mod_lt k (Nat.two_pow_pos 31)).trans_le hcount
  have hnode := getElem?_nodesOf_comb nameOf hlt 0 0
  have hwrapped : (2 * (k % 2 ^ 31) + 2) % 2 ^ 32 = 2 * ((k + 1) % 2 ^ 31) := by omega
  rw [zero_add, zero_add] at hnode
  rw [CompiledTree.move?, CompiledTree.ofTree, List.getElem?_toArray, hnode]
  dsimp only
  rw [if_neg (hright _ hlt), UInt32.toNat_ofNat', hwrapped]

/-! ## Numbers of a comb -/

/-- Halves of odd numbers are spelled with one place behind the point. -/
theorem spell_half (n : ℕ) : Json.FractionText.spell ((n : ℚ) + 1 / 2) =
    Layout.json.decimalText ⟨10 * n + 5, -1⟩ := by
  have hpos : (0 : ℚ) < n + 1 / 2 := by positivity
  have hwhole : ¬ (((n : ℚ) + 1 / 2) * 10 ^ 0).den = 1 := by
    rw [pow_zero, mul_one]
    intro hden
    have hnum := (Rat.den_eq_one_iff _).1 hden
    have hodd : 2 * ((n : ℚ) + 1 / 2).num = 2 * (n : ℤ) + 1 := by
      have hodd : 2 * (((n : ℚ) + 1 / 2).num : ℚ) = 2 * n + 1 := by
        rw [hnum]
        ring
      exact_mod_cast hodd
    omega
  have htenth : ((n : ℚ) + 1 / 2) * 10 ^ 1 = ((10 * n + 5 : ℕ) : ℚ) := by
    push_cast
    ring
  have hplaces : ((List.range 20).find? fun k => (((n : ℚ) + 1 / 2) * 10 ^ k).den = 1) =
      some 1 := by
    have hrange : List.range 20 = 0 :: 1 :: List.range' 2 18 := rfl
    have hden : (((n : ℚ) + 1 / 2) * 10 ^ 1).den = 1 := by
      rw [htenth, Rat.den_natCast]
    rw [hrange, List.find?_cons_of_neg (by simpa only [decide_eq_true_eq] using hwhole),
      List.find?_cons_of_pos (by simpa only [decide_eq_true_eq] using hden)]
  have hspell : Json.FractionText.spell ((n : ℚ) + 1 / 2) =
      (let places := ((List.range 20).find? fun k => (((n : ℚ) + 1 / 2) * 10 ^ k).den = 1).getD 20
      let magnitude :=
        if (n : ℚ) + 1 / 2 = 0 then ['0', '.', '0']
        else Layout.json.decimalText ⟨(((n : ℚ) + 1 / 2) * 10 ^ places).num.natAbs, -places⟩
      if (n : ℚ) + 1 / 2 < 0 then '-' :: magnitude else magnitude) := rfl
  rw [hspell, hplaces]
  dsimp only [Option.getD_some]
  rw [if_neg hpos.ne', if_neg hpos.not_gt, htenth, Rat.num_natCast, Int.natAbs_natCast]
  rfl

/-- Halves of odd numbers read back. -/
theorem readsBack_half (n : ℕ) : Json.ReadsBack ((n : ℚ) + 1 / 2) := by
  have hpos : 0 < (⟨10 * n + 5, -1⟩ : Decimal).digits := Nat.succ_pos _
  rcases Layout.spells_decimalText hpos with ⟨m, hspells, hvalue⟩
  have hhalf : (⟨10 * n + 5, -1⟩ : Decimal).value = (n : ℚ) + 1 / 2 := by
    rw [Decimal.value]
    push_cast
    ring
  rw [Json.ReadsBack, spell_half, Json.Number.fractionOfSpelling?, hspells.unsigned]
  refine ⟨hspells.isNumber, ?_⟩
  dsimp only
  rw [hspells.read, Option.bind_some, ← hhalf, ← hvalue]
  rfl

/-- The numbers of a comb read back. -/
theorem readsBack_fraction_comb (nameOf : ℕ → String) (first count slot : ℕ) :
    ∀ node ∈ CompiledTree.nodesOf nameOf slot (comb first count), Json.ReadsBack node.fraction := by
  have hleaf : ∀ first : ℕ, Json.ReadsBack (ClassCounts.alternating first 1).rate := by
    intro first
    rw [ClassCounts.alternating]
    generalize hq : (first + 1 + 1) / 2 - (first + 1) / 2 = q
    generalize hp : (first + 1) / 2 - first / 2 = p
    unfold Json.ReadsBack
    rcases (by omega : (q = 1 ∧ p = 0) ∨ (q = 0 ∧ p = 1)) with ⟨rfl, rfl⟩ | ⟨rfl, rfl⟩
    · decide +kernel
    · decide +kernel
  induction count generalizing first slot with
  | zero =>
    rw [comb, CompiledTree.nodesOf, List.forall_mem_singleton]
    exact hleaf first
  | succ count ih =>
    rw [comb, CompiledTree.nodesOf, CompiledTree.nodesOf, List.forall_mem_cons,
      List.forall_mem_append, List.forall_mem_singleton]
    exact ⟨readsBack_half first, hleaf first, ih _ _⟩

/-! ## A table of page views -/

/-- The field of page views. -/
def viewField : Field :=
  .ofStandard .pageViews .numeric

/-- The cell of a whole number. -/
def wholeCell (n : ℕ) : String :=
  String.ofList (Json.Number.int n : Json.Number Float).spell

/-- The row of a lead with some page views, converted if their number is odd. -/
def viewRow (views : ℕ) : Sample :=
  ⟨[wholeCell views, wholeCell (views % 2)], .ofParity views⟩

/-- A table with one lead for each number of page views up to the last one. -/
def viewTable (last : ℕ) : Dataset where
  header := [viewField.name, Dataset.targetColumn]
  samples := (List.range (last + 1)).map viewRow

/-- A lead with page views only. -/
def viewLead (views : ℕ) : Lead :=
  Lead.ofColumns [(viewField.name, wholeCell views)]

section Encoding

variable {last views : ℕ} {columns : List (String × String)}

theorem viewField_mem : viewField ∈ Schema.standard.fields := by
  decide

theorem viewTable_header (last : ℕ) :
    ∀ column ∈ (viewTable last).header, column ∈ Schema.exportColumns := by
  change ∀ column ∈ [viewField.name, Dataset.targetColumn], _
  decide

/-- The cell of a whole number is read as the number. -/
theorem isWhole_number_viewField (hviews : views ≤ 2 ^ 53)
    (hexport : ∀ column ∈ columns.map Prod.fst, column ∈ Schema.exportColumns)
    (hnodup : (columns.map Prod.fst).Nodup) (hcell : (viewField.name, wholeCell views) ∈ columns) :
    Binary64.IsWhole ((Lead.ofColumns columns).number viewField.lookupKeys) views := by
  have hwhole := Binary64.isWhole_ofNat hviews
  have hproper : (Json.Number.int views : Json.Number Float).IsProper := by
    rw [Json.Number.IsProper, Json.Number.fitsWord]
    simp only [Bool.and_eq_true, decide_eq_true_eq]
    omega
  have hread : Numeral.readFloat? (Text.trim (wholeCell views)) = some (Float.ofNat views) := by
    rw [wholeCell, (Value.trim_of_text? (v := .number (.int views)) rfl).2,
      Json.Number.readFloat?_spell hproper]
    rfl
  rcases (Lead.reading_ofColumns viewField_mem hexport hnodup hcell).1 with ⟨hfloat, -⟩ | ⟨-, hnone⟩
  · rw [hread, Option.some.injEq] at hfloat
    rwa [← hfloat]
  · exact absurd hwhole.finite (by rw [hnone _ hread]; exact Bool.false_ne_true)

/-- Page views are the only field of a declared name in the table. -/
theorem viewField_of_name {f : Field} (hf : f ∈ Schema.standard.fields)
    (hname : f.name ∈ (viewTable last).header) : f = viewField := by
  have honly : ∀ f ∈ Schema.standard.fields, f.name ∈ [viewField.name, Dataset.targetColumn] →
      f = viewField := by
    decide
  exact honly f hf hname

/-- Page views are the only field. -/
theorem mem_fields_viewTable {f : Field} :
    f ∈ ((viewTable last).vocabulary .standard).fields ↔ f = viewField := by
  rw [Dataset.vocabulary, Vocabulary.mem_fields_derive_export (viewTable_header last)]
  constructor
  · exact fun h => viewField_of_name h.1 h.2
  · rintro rfl
    exact ⟨viewField_mem, List.mem_cons_self⟩

/-- Page views are the only input. -/
theorem names_viewTable (last : ℕ) :
    ((viewTable last).vocabulary .standard).names = [viewField.name] := by
  have hnumeric : viewField.kind ≠ .categorical := by decide
  have hnodup := ((viewTable last).vocabulary .standard).nodup
  rw [← List.perm_singleton, List.perm_ext_iff_of_nodup hnodup (List.nodup_singleton _)]
  intro name
  rw [Dataset.vocabulary, Vocabulary.mem_names_derive_export (viewTable_header last),
    List.mem_singleton]
  constructor
  · rintro ⟨f, hf, i, hi, hname⟩
    rw [viewField_of_name hf (List.mem_of_getElem? hi), if_neg hnumeric] at hname
    exact hname
  · rintro rfl
    exact ⟨viewField, viewField_mem, 0, rfl, by rw [if_neg hnumeric]⟩

theorem name?_viewTable (last : ℕ) :
    ((viewTable last).vocabulary .standard).name? 0 = some viewField.name := by
  rw [Vocabulary.name?, names_viewTable]
  rfl

/-- A lead is encoded by its page views. -/
theorem encode_viewTable (last : ℕ) (lead : Lead) :
    (((viewTable last).vocabulary .standard).encode lead : Array ℚ) =
      #[Binary64.toRat (lead.number viewField.lookupKeys)] := by
  have hname := name?_viewTable last
  have hget : ((viewTable last).vocabulary .standard).get?
      (((viewTable last).vocabulary .standard).encode lead : Array ℚ) viewField.name =
        some (Binary64.toRat (lead.number viewField.lookupKeys)) := by
    refine Vocabulary.get?_encode_of_entry (mem_fields_viewTable.2 rfl) (List.mem_of_getElem? hname)
      rfl fun g hg _ _ => mem_fields_viewTable.1 hg
  have hsize : (((viewTable last).vocabulary .standard).encode lead : Array ℚ).size = 1 := by
    rw [Vocabulary.size_encode, Vocabulary.size, names_viewTable, List.length_singleton]
  rw [Vocabulary.get?, Vocabulary.indexOf?_of_name? hname, Option.bind_some] at hget
  refine Array.ext (hsize.trans rfl) fun i hi _ => ?_
  obtain rfl : i = 0 := by omega
  exact Option.some.inj ((Array.getElem?_eq_getElem hi).symm.trans hget)

/-- A row of the table is encoded as its page views. -/
theorem encode_viewRow (last : ℕ) (hviews : views ≤ 2 ^ 53) :
    (((viewTable last).vocabulary .standard).encode
      ((viewTable last).leadOf (viewRow views).cells) : Array ℚ) = #[(views : ℚ)] := by
  have hnodup : [viewField.name, Dataset.targetColumn].Nodup := by decide
  have hwhole := @isWhole_number_viewField views
    [(viewField.name, wholeCell views), (Dataset.targetColumn, wholeCell (views % 2))] hviews
    (viewTable_header last) hnodup List.mem_cons_self
  rw [encode_viewTable]
  exact congrArg (fun x : ℚ => #[x]) hwhole.toRat_eq

/-- A lead with page views only is encoded as these. -/
theorem valueOf_viewLead (last : ℕ) (hviews : views ≤ 2 ^ 53) :
    ((viewTable last).vocabulary .standard).valueOf
      (((viewTable last).vocabulary .standard).encode (viewLead views) : Array ℚ)
      viewField.name = views := by
  have hexport : ∀ column ∈ [viewField.name], column ∈ Schema.exportColumns := by decide
  have hwhole := @isWhole_number_viewField views [(viewField.name, wholeCell views)] hviews hexport
    (List.nodup_singleton _) List.mem_cons_self
  have hname := name?_viewTable last
  rw [encode_viewTable, Vocabulary.valueOf, Vocabulary.get?, Vocabulary.indexOf?_of_name? hname,
    Option.bind_some]
  exact hwhole.toRat_eq

end Encoding

/-! ## Rows to fit a tree on -/

/-- The vectors of leads with some page views. -/
def viewVectors (views : List ℕ) : List (Array ℚ) :=
  views.map fun n : ℕ => #[(n : ℚ)]

/-- The rows of leads with some page views, each of weight one. -/
def viewRows (views : List ℕ) : TrainingTable ℚ where
  features := (viewVectors views).toArray
  labels := (views.map Label.ofParity).toArray
  weights := Array.replicate views.length 1

/-- One tree on all rows of a standard export. -/
def viewOptions : TrainingOptions ℚ :=
  { cityOptions with schema := .standard }

section Rows

variable {last row : ℕ} {views : List ℕ}

theorem weight_viewRows (hrow : row < views.length) : (viewRows views).weight row = 1 := by
  simp [viewRows, TrainingTable.weight, hrow]

/-- No row is left out. -/
theorem weightedRows_viewRows (views : List ℕ) :
    (viewRows views).weightedRows = List.range views.length := by
  have hsize : (viewRows views).labels.size = views.length := by
    simp [viewRows]
  rw [TrainingTable.weightedRows, hsize, List.filter_eq_self]
  intro row hrow
  rw [weight_viewRows (List.mem_range.1 hrow)]
  decide +kernel

/-- The labels alternate with the page views. -/
theorem alternates_viewRows (hperm : views.Perm (List.range (last + 1))) :
    (viewRows views).Alternates (fun row => views.getD row 0) (List.range views.length) 0
      (last + 1) := by
  have hlength : views.length = last + 1 := by simpa using hperm.length_eq
  have hplaces : (List.range views.length).map (fun row => views.getD row 0) = views := by
    refine List.ext_getElem (by simp) fun row _ hrow => ?_
    simp [hrow]
  refine ⟨?_, fun row hrow => weight_viewRows (List.mem_range.1 hrow), fun row hrow => ?_,
    fun row hrow => ?_, ?_⟩
  · have hpos : 0 < views.length := by omega
    simp [viewRows, viewVectors, TrainingTable.width, hpos]
  · simp [viewRows, viewVectors, TrainingTable.value, List.mem_range.1 hrow]
  · simp [viewRows, TrainingTable.label, List.mem_range.1 hrow]
  · rw [hplaces, ← List.range_eq_range']
    exact hperm

/-- Without a bootstrap every tree is grown from the rows as they are. -/
theorem weightedTable_viewRows (views : List ℕ) (index : ℕ) :
    (Forest.weightedTable viewOptions.forest (viewVectors views).toArray
      (views.map Label.ofParity).toArray index).1 = viewRows views := by
  have hbootstrap : viewOptions.forest.bootstrap = false := rfl
  simp [Forest.weightedTable, Forest.rowWeights, hbootstrap, viewRows, viewVectors]

theorem weight_viewRows_nonneg (views : List ℕ) (row : ℕ) : 0 ≤ (viewRows views).weight row := by
  have hone : (0 : ℚ) ≤ 1 := zero_le_one
  rw [← weightedTable_viewRows views 0]
  exact Forest.forall_weight (P := fun x : ℚ => 0 ≤ x) le_rfl hone (fun x hx => add_nonneg hx hone)
    _ _ _ _ row

/-- The options set no limit on the trees. -/
theorem isUnlimited_viewOptions : viewOptions.forest.tree.IsUnlimited :=
  ⟨rfl, by decide, by decide, rfl⟩

/-! ## Runs -/

/-- A forest fitted on the rows in any order is one comb. -/
theorem exists_trained_viewRows (hperm : views.Perm (List.range (last + 1))) :
    ∃ importances, Forest.train viewOptions.forest (viewVectors views)
        ((views.map Label.ofParity).map Label.toNat) =
          .ok ⟨⟨[.ofTree (comb 0 last)]⟩, importances⟩ ∧
      (comb 0 last).WellFormed 1 := by
  have halternates := alternates_viewRows hperm
  have hwidth : ∀ row ∈ viewVectors views, row.size = 1 := by
    simp [viewVectors]
  have hconfig : viewOptions.forest.IsValid := ⟨by decide, by decide, by decide⟩
  have hlength : views.length = last + 1 := by simpa using hperm.length_eq
  have hne : (viewVectors views) ≠ [] := by
    rw [← List.length_pos_iff, viewVectors, List.length_map]
    omega
  have hlabels : (viewVectors views).length = (views.map Label.ofParity).length := by
    simp [viewVectors]
  rcases Forest.exists_train hconfig hne hlabels hwidth one_pos
    fun _ _ _ _ => Exact.isFinite_eq _ with ⟨trained, htrained⟩
  rcases Forest.forall₂_grown_of_train htrained with
    ⟨-, labels, width, grown, hlabels, -, -, rfl, hall⟩
  rw [Forest.mapM_ofNat?_toNat, Option.some.injEq] at hlabels
  subst hlabels
  rcases List.forall₂_cons_left_iff.1 hall with ⟨g, others, ⟨after, hgrow⟩, hothers, rfl⟩
  rw [List.forall₂_nil_left_iff] at hothers
  subst hothers
  rw [weightedTable_viewRows] at hgrow
  have hgrows : (viewRows views).Grows viewOptions.forest.tree 0 (List.range views.length)
      g.tree := by
    rw [← weightedRows_viewRows views]
    exact ⟨_, _, _, _, hgrow, rfl⟩
  have hcomb := halternates.eq_comb isUnlimited_viewOptions hgrows
  have hformed := (TrainingTable.grow?_spec (weight_viewRows_nonneg views) hgrow).1
  rw [halternates.width_eq, hcomb] at hformed
  rw [List.map_singleton, hcomb] at htrained
  exact ⟨_, htrained, hformed⟩

end Rows

/-- Without a test part a run trains on all rows of the table, in some order. -/
theorem exists_views_training (last : ℕ) :
    ∃ views : List ℕ, views.Perm (List.range (last + 1)) ∧
      ((viewTable last).split viewOptions.testFraction viewOptions.forest.seed).1.samples =
        views.map viewRow := by
  have hnumbered : Relation.Comp (fun samples views : List _ => samples = views.map viewRow)
      List.Perm ((viewTable last).split (0 : ℚ) viewOptions.forest.seed).1.samples
        (List.range (last + 1)) := by
    rw [List.eq_map_comp_perm]
    exact (viewTable last).split_zero_perm viewOptions.forest.seed
  rcases hnumbered with ⟨views, hsamples, hviews⟩
  exact ⟨views, hviews, hsamples⟩

/-- A run fits one comb on the table. -/
theorem exists_trained_viewTable {last : ℕ} (hlast : last ≤ 2 ^ 53) :
    ∃ importances, trainOn viewOptions.forest (encodedRows
        ((viewTable last).split viewOptions.testFraction viewOptions.forest.seed).1
        ((viewTable last).vocabulary .standard)) =
          .ok ⟨⟨[.ofTree (comb 0 last)]⟩, importances⟩ ∧
      (comb 0 last).WellFormed 1 := by
  rcases exists_views_training last with ⟨views, hviews, hsamples⟩
  rcases exists_trained_viewRows hviews with ⟨importances, htrained, hformed⟩
  have hvectors : viewVectors views = views.map fun n =>
      ((viewTable last).vocabulary .standard).encode
        ((viewTable last).leadOf (viewRow n).cells) :=
    List.map_congr_left fun n hn => (encode_viewRow last
      ((Nat.lt_succ_iff.1 (List.mem_range.1 (hviews.subset hn))).trans hlast)).symm
  refine ⟨importances, ?_, hformed⟩
  rw [← htrained, hvectors, trainOn, Dataset.encodedRows_eq, hsamples]
  simp only [List.map_map]
  rfl

/-- A run on the table has an outcome: its artifact holds a comb. -/
theorem exists_outcome_viewTable {last : ℕ} (hlast : last ≤ 2 ^ 53) :
    ∃ outcome, trainModel viewOptions (viewTable last) = .ok outcome ∧
      outcome.artifact.vocabulary = (viewTable last).vocabulary .standard ∧
      outcome.artifact.trees = [.ofTree (fun i =>
        (((viewTable last).vocabulary .standard).name? i).getD "") (comb 0 last)] := by
  rcases exists_trained_viewTable hlast with ⟨importances, htrained, hformed⟩
  have hnames := names_viewTable last
  have hnamed : ((viewTable last).vocabulary viewOptions.schema).isEmpty = false := by
    rw [Vocabulary.isEmpty, List.isEmpty_eq_false_iff]
    exact List.ne_nil_of_mem (hnames ▸ List.mem_singleton_self _)
  have hrows : ((viewTable last).split viewOptions.testFraction viewOptions.forest.seed).1.samples ≠
      [] := by
    rcases exists_views_training last with ⟨views, hviews, hsamples⟩
    rw [hsamples]
    exact List.ne_nil_of_mem (List.mem_map_of_mem
      (hviews.symm.subset (List.mem_range.2 (Nat.succ_pos last))))
  have hshuffle : viewOptions.shuffle = false := rfl
  have hfolds : viewOptions.folds < 2 := Nat.two_pos
  rcases exists_outcome_of_trainOn hshuffle hfolds le_rfl one_pos hnamed hrows htrained with
    ⟨outcome, hrun, hmodel, hcompile⟩
  rw [hmodel] at hcompile
  rcases Artifact.compile_eq_ok_iff.1 hcompile with ⟨-, -, -, -, hvocabulary, hcompiled⟩
  rcases List.forall₂_cons_left_iff.1 hcompiled with ⟨c, others, hc, hothers, htrees⟩
  rw [List.forall₂_nil_left_iff] at hothers
  subst hothers
  rcases FittedTree.compile_eq_ok_iff.1 hc with ⟨unfolded, hunfold, rfl⟩
  cases (FittedTree.unfold_ofTree hformed).symm.trans hunfold
  exact ⟨outcome, hrun, hvocabulary, htrees⟩

/-! ## Scores -/

/-- If there are more than `2 ^ 31` rows, the artifact of the table is read back as it was written,
and the lead of the last row is scored by the rules. -/
theorem score_of_viewTable {last : ℕ} (hlow : 2 ^ 31 ≤ last) (hhigh : last ≤ 2 ^ 53) :
    ∃ outcome, trainModel viewOptions (viewTable last) = .ok outcome ∧
      (∀ x ∈ outcome.artifact.fractions, Json.ReadsBack x) ∧
      (∀ c ∈ outcome.artifact.trees, c.nodeCount = 2 * last + 1) ∧
      (Engine.ofText outcome.artifact.canonical : Engine ℚ).score (viewLead last) =
        (ruleScore (viewLead last), .rules) := by
  rcases exists_outcome_viewTable hhigh with ⟨outcome, hrun, hvocabulary, htrees⟩
  have hreads : ∀ x ∈ outcome.artifact.fractions, Json.ReadsBack x := by
    rw [Artifact.fractions, htrees, List.flatMap_singleton, List.forall_mem_map]
    exact readsBack_fraction_comb _ 0 last 0
  have hnodes : ∀ c ∈ outcome.artifact.trees, c.nodeCount = 2 * last + 1 := by
    rw [htrees, List.forall_mem_singleton, CompiledTree.nodeCount_ofTree, size_comb]
  refine ⟨outcome, hrun, hreads, hnodes, Engine.score_of_endless
    (Artifact.parse?_canonical hreads) (htrees ▸ List.mem_singleton_self _) ?_⟩
  rw [hvocabulary]
  refine endless_comb hlow fun i hi => ?_
  have hname := name?_viewTable last
  have hcast : (i : ℚ) + 1 ≤ last := by exact_mod_cast hi
  rw [hname, Option.getD_some, valueOf_viewLead last hhigh, not_le]
  linarith

/-- With `2 ^ 31 + 1` rows a run has an outcome whose numbers all read back and whose tree has one
node more than there are slots, but the engine of its artifact does not answer the lead of the last
row by the model. -/
theorem not_scores_viewTable :
    (viewTable (2 ^ 31)).size = 2 ^ 31 + 1 ∧
      (∀ s ∈ (viewTable (2 ^ 31)).samples, s.cells.length = (viewTable (2 ^ 31)).header.length) ∧
      ∃ outcome, trainModel viewOptions (viewTable (2 ^ 31)) = .ok outcome ∧
        (∀ x ∈ outcome.artifact.fractions, Json.ReadsBack x) ∧
        (∀ c ∈ outcome.artifact.trees, c.nodeCount = 2 * 2 ^ 31 + 1) ∧
        (Engine.ofText outcome.artifact.canonical : Engine ℚ).score (viewLead (2 ^ 31)) =
          (ruleScore (viewLead (2 ^ 31)), .rules) := by
  refine ⟨?_, ?_, score_of_viewTable le_rfl (by norm_num)⟩
  · rw [Dataset.size, viewTable, List.length_map, List.length_range]
  · rw [viewTable, List.forall_mem_map]
    exact fun _ _ => rfl

end LeadScoring
