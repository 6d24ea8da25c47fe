import LeadScoring.Proofs.Outcome
import LeadScoring.Proofs.Random.Arrangements
import LeadScoring.Table.Dataset
import Mathlib.Algebra.Order.Round
import Mathlib.Data.Rat.Floor

/-!
# Splitting by positions

A split can be made on the positions of the rows alone: the positions of each label are shuffled
and cut in two, the parts are joined and shuffled again, and only then the rows and the labels are
copied, each from its own column of the table.  Every exchange, every cut and every copy may leave
its list, and the whole fails where one does.  It never does, and what is copied are the samples
that `Dataset.split` arranges directly.

Main results:

- Theorem `Dataset.rowsAt?_eq`: positions at which samples stand give these samples.
- Theorem `Dataset.split?_eq`: the split by positions is the split of the samples.
- Theorem `Dataset.split_perm`: both sides together are the rows of the table.
- Theorem `Dataset.count_split`: how many rows of a label are held out.
- Theorem `Dataset.split_shuffle_exact`: all of it for exact fractions below one.
-/

namespace LeadScoring

variable {β : Type}

/-! ## Checked cuts and copies -/

/-- A list cut in two behind its first `n` entries, unless it has fewer. -/
def cut? (n : ℕ) (items : List β) : Option (List β × List β) :=
  if n ≤ items.length then some (items.take n, items.drop n) else none

namespace Dataset

/-- The rows and then the labels at given positions, unless one of them is outside the table. -/
def rowsAt? (d : Dataset) (positions : List ℕ) : Option Dataset := do
  let rows ← positions.mapM fun i => d.rows[i]?
  let labels ← positions.mapM fun i => d.labels[i]?
  return ⟨d.header, List.zipWith Sample.mk rows labels⟩

/-- The positions of the rows with a label, in their order. -/
def positionsOf (d : Dataset) (label : Label) : List ℕ :=
  (List.range d.size).filter fun i => d.labels[i]? == some label

/-- The positions of the rows with a label in random order: those held out, then the others. -/
def sidesOf? {α : Type} [Scalar α] (d : Dataset) (fraction : α) (label : Label) (g : Generator) :
    Option ((List ℕ × List ℕ) × Generator) := do
  let (positions, g) ← g.shuffle? (d.positionsOf label)
  let sides ← cut? (heldOut fraction positions.length) positions
  return (sides, g)

/-- Training and test rows, chosen by their positions. -/
def split? {α : Type} [Scalar α] (d : Dataset) (fraction : α) (seed : UInt64) :
    Option (Dataset × Dataset) := do
  let ((testNegatives, trainNegatives), g) ← d.sidesOf? fraction .negative (.ofSeed seed)
  let ((testPositives, trainPositives), g) ← d.sidesOf? fraction .positive g
  let (train, g) ← g.shuffle? (trainNegatives ++ trainPositives)
  let (test, _) ← g.shuffle? (testNegatives ++ testPositives)
  return (← d.rowsAt? train, ← d.rowsAt? test)

/-- The rows in random order, chosen by their positions. -/
def shuffle? (d : Dataset) (seed : UInt64) : Option Dataset := do
  let (order, _) ← (Generator.ofSeed seed).shuffle? (List.range d.size)
  d.rowsAt? order

variable {d : Dataset}

/-! ## Positions and the samples there -/

/-- A sample stands at a position of a table. -/
def HasAt (d : Dataset) (i : ℕ) (s : Sample) : Prop :=
  d.samples[i]? = some s

/-- Positions at which samples stand give these samples, each row with its own label. -/
theorem rowsAt?_eq {positions : List ℕ} {samples : List Sample}
    (h : List.Forall₂ d.HasAt positions samples) :
    d.rowsAt? positions = some ⟨d.header, samples⟩ := by
  have hrows : positions.mapM (fun i => d.rows[i]?) = some (samples.map (·.cells)) := by
    rw [Outcome.mapM_eq_some_iff, List.forall₂_map_right_iff]
    refine h.imp fun i s hs => ?_
    rw [rows, List.getElem?_map, hs, Option.map_some]
  have hlabels : positions.mapM (fun i => d.labels[i]?) = some (samples.map (·.label)) := by
    rw [Outcome.mapM_eq_some_iff, List.forall₂_map_right_iff]
    refine h.imp fun i s hs => ?_
    rw [labels, List.getElem?_map, hs, Option.map_some]
  have hpairs : List.zipWith Sample.mk (samples.map (·.cells)) (samples.map (·.label)) =
      samples := by
    simp [List.zipWith_map]
  simp [rowsAt?, hrows, hlabels, hpairs]

/-- At the positions in order stand the samples in order. -/
theorem forall₂_range (d : Dataset) : List.Forall₂ d.HasAt (List.range d.size) d.samples := by
  rw [List.forall₂_iff_get]
  exact ⟨by simp [size], fun i hi hi' => by simp [HasAt]⟩

/-- At the positions of a label stand the samples with it. -/
theorem forall₂_positionsOf (d : Dataset) (label : Label) :
    List.Forall₂ d.HasAt (d.positionsOf label) (d.samples.filter fun s => s.label == label) := by
  refine List.rel_filter (R := d.HasAt) ?_ d.forall₂_range
  intro i s hs
  have hlabel : d.labels[i]? = some s.label := by
    rw [labels, List.getElem?_map, hs, Option.map_some]
  simp [hlabel]

/-- A shuffle arranges the positions of a label as it arranges the samples with it. -/
theorem forall₂_members (d : Dataset) (label : Label) (g : Generator) :
    List.Forall₂ d.HasAt (g.shuffle (d.positionsOf label)).1 (d.members label g).1 :=
  (Generator.shuffle_forall₂ (d.forall₂_positionsOf label) g).1

theorem members_perm (d : Dataset) (label : Label) (g : Generator) :
    (d.members label g).1.Perm (d.samples.filter fun s => s.label == label) :=
  g.shuffle_perm _

/-- A class has as many members as samples. -/
theorem length_members (d : Dataset) (label : Label) (g : Generator) :
    (d.members label g).1.length = d.count label := by
  rw [(d.members_perm label g).length_eq, count, List.countP_eq_length_filter]

/-- Shuffling by positions shuffles the samples. -/
theorem shuffle?_eq (d : Dataset) (seed : UInt64) : d.shuffle? seed = some (d.shuffle seed) := by
  have hsamples := (Generator.shuffle_forall₂ d.forall₂_range (.ofSeed seed)).1
  rw [shuffle?, Generator.shuffle?_eq]
  exact rowsAt?_eq hsamples

section Sides

variable {α : Type} [Scalar α] {fraction : α}

/-! ## The split by positions -/

/-- The shuffled members of a class are split where those that are held out end. -/
theorem sidesOf?_eq {label : Label} (h : heldOut fraction (d.count label) ≤ d.count label)
    (g : Generator) :
    d.sidesOf? fraction label g =
      some (((g.shuffle (d.positionsOf label)).1.take (heldOut fraction (d.count label)),
        (g.shuffle (d.positionsOf label)).1.drop (heldOut fraction (d.count label))),
        (d.members label g).2) := by
  have hlength : (g.shuffle (d.positionsOf label)).1.length = d.count label :=
    (d.forall₂_members label g).length_eq.trans (d.length_members label g)
  have hafter := (Generator.shuffle_forall₂ (d.forall₂_positionsOf label) g).2
  rw [sidesOf?, Generator.shuffle?_eq]
  simp only [Option.bind_eq_bind, Option.bind_some, hlength, cut?, if_pos h, hafter]
  rfl

/-- The split by positions is the split of the samples, if of no label more rows are held out than
there are. -/
theorem split?_eq (h : ∀ label, heldOut fraction (d.count label) ≤ d.count label)
    (seed : UInt64) : d.split? fraction seed = some (d.split fraction seed) := by
  have hnegatives := d.forall₂_members .negative (.ofSeed seed)
  have hpositives := d.forall₂_members .positive (d.members .negative (.ofSeed seed)).2
  have htrain := List.rel_append
    (List.forall₂_drop (heldOut fraction (d.count .negative)) hnegatives)
    (List.forall₂_drop (heldOut fraction (d.count .positive)) hpositives)
  have htest := List.rel_append
    (List.forall₂_take (heldOut fraction (d.count .negative)) hnegatives)
    (List.forall₂_take (heldOut fraction (d.count .positive)) hpositives)
  have hrest := fun g => rowsAt?_eq (Generator.shuffle_forall₂ htrain g).1
  have hheld := fun g => rowsAt?_eq (Generator.shuffle_forall₂ htest g).1
  have hafter := fun g => (Generator.shuffle_forall₂ htrain g).2
  dsimp only at hrest hheld hafter
  simp only [split?, sidesOf?_eq (h _), Generator.shuffle?_eq, Option.bind_eq_bind,
    Option.bind_some, hrest, hheld, hafter, split, length_members]
  rfl

/-! ## What the sides hold -/

/-- Two lists cut in two are together what the four parts are. -/
theorem drop_append_take_perm (xs ys : List β) (m n : ℕ) :
    ((xs.drop m ++ ys.drop n) ++ (xs.take m ++ ys.take n)).Perm (xs ++ ys) := by
  calc ((xs.drop m ++ ys.drop n) ++ (xs.take m ++ ys.take n)).Perm
        ((xs.take m ++ ys.take n) ++ (xs.drop m ++ ys.drop n)) := List.perm_append_comm
    _ = xs.take m ++ (ys.take n ++ (xs.drop m ++ ys.drop n)) := List.append_assoc ..
    (xs.take m ++ (ys.take n ++ (xs.drop m ++ ys.drop n))).Perm
        (xs.take m ++ (xs.drop m ++ (ys.take n ++ ys.drop n))) :=
      (List.perm_append_comm_assoc ..).append_left _
    _ = xs ++ ys := by
      rw [← List.append_assoc, List.take_append_drop, List.take_append_drop]

/-- The samples of both labels are all samples. -/
theorem members_append_perm (d : Dataset) (g h : Generator) :
    ((d.members .negative g).1 ++ (d.members .positive h).1).Perm d.samples := by
  have hlabels : (d.samples.filter fun s => s.label == .positive) =
      d.samples.filter fun s => !(s.label == .negative) := by
    refine List.filter_congr fun s _ => ?_
    cases s.label <;> rfl
  have hfilters := (d.members_perm .negative g).append (d.members_perm .positive h)
  rw [hlabels] at hfilters
  exact hfilters.trans (List.filter_append_perm _ d.samples)

/-- Both sides together hold the samples of the table, each as often as it does. -/
theorem split_perm (d : Dataset) (fraction : α) (seed : UInt64) :
    ((d.split fraction seed).1.samples ++ (d.split fraction seed).2.samples).Perm d.samples :=
  ((Generator.shuffle_perm _ _).append (Generator.shuffle_perm _ _)).trans
    ((drop_append_take_perm _ _ _ _).trans (d.members_append_perm _ _))

/-- Of the samples of one label, the first ones are none of another. -/
theorem countP_take_members {n : ℕ} {other : Label} (hn : n ≤ d.count other) (label : Label)
    (g : Generator) :
    ((d.members other g).1.take n).countP (fun s => s.label == label) =
      if other = label then n else 0 := by
  have hlabel : ∀ s ∈ (d.members other g).1.take n, s.label = other := by
    intro s hs
    have hmem := (d.members_perm other g).subset (List.mem_of_mem_take hs)
    simpa using (List.mem_filter.1 hmem).2
  split_ifs with heq
  · subst heq
    rw [List.countP_eq_length.2 fun s hs => beq_iff_eq.2 (hlabel s hs), List.length_take,
      length_members, Nat.min_eq_left hn]
  · exact List.countP_eq_zero.2 fun s hs hs' => heq ((hlabel s hs).symm.trans (beq_iff_eq.1 hs'))

/-- The rows of a label on the test side are as many as are held out of it. -/
theorem count_split (h : ∀ label, heldOut fraction (d.count label) ≤ d.count label)
    (seed : UInt64) (label : Label) :
    (d.split fraction seed).2.count label = heldOut fraction (d.count label) := by
  rw [split, count]
  dsimp only
  rw [(Generator.shuffle_perm _ _).countP_eq, List.countP_append, length_members, length_members,
    countP_take_members (h _), countP_take_members (h _)]
  cases label <;> simp

end Sides

/-! ## Exact fractions -/

section Exact

variable {fraction : ℚ}

/-- The number of rows held out is the nearest whole number; no share of a count is negative, so
halves are rounded away from zero. -/
theorem heldOut_eq_round (hlow : 0 ≤ fraction) (n : ℕ) :
    (heldOut fraction n : ℤ) = round ((n : ℚ) * fraction) := by
  have hhalf : (mkRat 1 2 : ℚ) = 1 / 2 := by norm_num
  have hfloor : heldOut fraction n = ⌊(n : ℚ) * fraction + mkRat 1 2⌋.toNat := rfl
  rw [hfloor, round_eq, hhalf, Int.toNat_of_nonneg]
  positivity

/-- Rounding holds out no more rows than there are. -/
theorem heldOut_le (hlow : 0 ≤ fraction) (hhigh : fraction < 1) (n : ℕ) :
    heldOut fraction n ≤ n := by
  have hle : (n : ℚ) * fraction ≤ n := mul_le_of_le_one_right (Nat.cast_nonneg n) hhigh.le
  have hround : round ((n : ℚ) * fraction) ≤ round (n : ℚ) := by
    rw [round_eq, round_eq]
    exact Int.floor_le_floor (by linarith)
  rw [round_natCast, ← heldOut_eq_round hlow] at hround
  exact_mod_cast hround

/-- Two tables are the sides of a third: together they have its rows with their labels, each as
often as it does, and of every label the rounded share stands on the second one. -/
structure HasSides (d : Dataset) (fraction : ℚ) (train test : Dataset) : Prop where
  header_train : train.header = d.header
  header_test : test.header = d.header
  samples_perm : (train.samples ++ test.samples).Perm d.samples
  count_test : ∀ label, (test.count label : ℤ) = round ((d.count label : ℚ) * fraction)
  share_test : ∀ label, |(test.count label : ℚ) - d.count label * fraction| ≤ 1 / 2

/-- The sides of a split. -/
theorem hasSides_split (hlow : 0 ≤ fraction) (hhigh : fraction < 1) (d : Dataset)
    (seed : UInt64) :
    d.HasSides fraction (d.split fraction seed).1 (d.split fraction seed).2 := by
  have hcount : ∀ label, ((d.split fraction seed).2.count label : ℤ) =
      round ((d.count label : ℚ) * fraction) := by
    intro label
    rw [count_split (fun _ => heldOut_le hlow hhigh _), heldOut_eq_round hlow]
  refine ⟨rfl, rfl, d.split_perm fraction seed, hcount, fun label => ?_⟩
  have hnear := abs_sub_round ((d.count label : ℚ) * fraction)
  rw [← hcount label, abs_sub_comm] at hnear
  exact_mod_cast hnear

/-- With nothing to hold out, the rows to train on are all rows. -/
theorem split_zero_perm (d : Dataset) (seed : UInt64) :
    (d.split (0 : ℚ) seed).1.samples.Perm d.samples := by
  have hcount := (hasSides_split le_rfl one_pos d seed).count_test
  have htest : (d.split (0 : ℚ) seed).2.samples = [] := by
    refine List.eq_nil_iff_forall_not_mem.2 fun s hs => ?_
    have hpos : 0 < (d.split (0 : ℚ) seed).2.count s.label :=
      List.countP_pos_iff.2 ⟨s, hs, beq_self_eq_true s.label⟩
    have hzero := hcount s.label
    rw [mul_zero, round_zero] at hzero
    omega
  have hperm := d.split_perm (0 : ℚ) seed
  rwa [htest, List.append_nil] at hperm

/-- For a fraction from zero to below one, splitting a table by positions never leaves a list and
gives its two sides, and shuffling it by positions gives its rows with their labels. -/
theorem split_shuffle_exact (hlow : 0 ≤ fraction) (hhigh : fraction < 1) (d : Dataset)
    (seed : UInt64) :
    (∃ train test, d.split fraction seed = (train, test) ∧
      d.split? fraction seed = some (train, test) ∧ d.HasSides fraction train test) ∧
    ∃ shuffled, d.shuffle seed = shuffled ∧ d.shuffle? seed = some shuffled ∧
      shuffled.header = d.header ∧ shuffled.samples.Perm d.samples :=
  ⟨⟨_, _, rfl, split?_eq (fun _ => heldOut_le hlow hhigh _) seed,
      hasSides_split hlow hhigh d seed⟩,
    _, rfl, d.shuffle?_eq seed, rfl, Generator.shuffle_perm _ _⟩

/-- Of three rows of one label and one of the other, each half of a row is rounded up. -/
theorem split_shuffle_exact_fourRows :
    let table : Dataset := ⟨["Name"], [⟨["a"], .negative⟩, ⟨["b"], .negative⟩,
      ⟨["c"], .positive⟩, ⟨["a"], .negative⟩]⟩
    (0 : ℚ) ≤ 1 / 2 ∧ (1 / 2 : ℚ) < 1 ∧
      (∃ train test, table.split (1 / 2 : ℚ) 7 = (train, test) ∧
        table.split? (1 / 2 : ℚ) 7 = some (train, test) ∧ table.HasSides (1 / 2) train test) ∧
      (∃ shuffled, table.shuffle 7 = shuffled ∧ table.shuffle? 7 = some shuffled ∧
        shuffled.header = table.header ∧ shuffled.samples.Perm table.samples) ∧
      table.split (1 / 2 : ℚ) 7 = (⟨["Name"], [⟨["b"], .negative⟩]⟩,
        ⟨["Name"], [⟨["c"], .positive⟩, ⟨["a"], .negative⟩, ⟨["a"], .negative⟩]⟩) := by
  intro table
  have hlow : (0 : ℚ) ≤ 1 / 2 := by norm_num
  have hhigh : (1 / 2 : ℚ) < 1 := by norm_num
  obtain ⟨hsplit, hshuffle⟩ := split_shuffle_exact hlow hhigh table 7
  exact ⟨hlow, hhigh, hsplit, hshuffle, by decide +kernel⟩

end Exact

end Dataset

end LeadScoring
