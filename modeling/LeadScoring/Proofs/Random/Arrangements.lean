import LeadScoring.Proofs.Random.Selections
import Mathlib.Data.List.Permutation

/-!
# Arrangements by exchanges

A shuffle goes from the last position of a list down to the second and exchanges what stands there
with an entry that stands no later.  Read from its end, it takes entries out of a pool: each
position receives one, and the exchanges that follow do not touch it.  So every arrangement of
distinct entries comes from exactly one sequence of draws.

Main results:

- Definition `shuffleSequences`: the draws of a shuffle.
- Theorem `Generator.shuffle?_eq`: the exchanges of a shuffle stay within the list.
- Theorem `shuffled_eq_reverse_drawn`: a shuffle takes entries out of a pool, the last one first.
- Theorem `bijOn_shuffled`: every arrangement comes from exactly one sequence of draws.
- Theorem `Generator.shuffle_bijOn_arrangements`: all of it for the shuffle of a generator.
-/

namespace LeadScoring

variable {β : Type}

/-! ## Draws of a shuffle -/

/-- The draws of a shuffle of `n` entries: one value that is at most `i` for each `i` from `n - 1`
down to 1. -/
def shuffleSequences (n : ℕ) : Set (List ℕ) :=
  {draws | List.Forall₂ (fun i j => j ≤ i) (List.range' 1 (n - 1)).reverse draws}

theorem mem_shuffleSequences_zero {draws : List ℕ} : draws ∈ shuffleSequences 0 ↔ draws = [] :=
  List.forall₂_nil_left_iff

theorem mem_shuffleSequences_one {draws : List ℕ} : draws ∈ shuffleSequences 1 ↔ draws = [] :=
  List.forall₂_nil_left_iff

/-- The draws of a shuffle are a position up to the last one and the draws for the rest. -/
theorem mem_shuffleSequences_succ {n : ℕ} {draws : List ℕ} :
    draws ∈ shuffleSequences (n + 2) ↔
      ∃ j js, j ≤ n + 1 ∧ js ∈ shuffleSequences (n + 1) ∧ draws = j :: js := by
  change List.Forall₂ _ (List.range' 1 (n + 1)).reverse draws ↔ _
  rw [List.range'_1_concat, List.reverse_append, List.reverse_singleton, List.singleton_append,
    List.forall₂_cons_left_iff, Nat.add_comm 1 n]
  rfl

/-- With a last draw that has no choice, the draws of a shuffle take all entries out of a pool. -/
theorem drawSequences_eq_image (n : ℕ) :
    drawSequences (n + 1) (n + 1) = (· ++ [0]) '' shuffleSequences (n + 1) := by
  ext draws
  rw [Set.mem_image]
  induction n generalizing draws with
  | zero =>
    rw [mem_drawSequences_succ]
    constructor
    · rintro ⟨d, ds, hd, hds, rfl⟩
      rw [mem_drawSequences_zero.1 hds, Nat.lt_one_iff.1 hd]
      exact ⟨[], mem_shuffleSequences_one.2 rfl, rfl⟩
    · rintro ⟨js, hjs, rfl⟩
      rw [mem_shuffleSequences_one.1 hjs]
      exact ⟨0, [], Nat.one_pos, mem_drawSequences_zero.2 rfl, rfl⟩
  | succ n ih =>
    rw [mem_drawSequences_succ]
    simp only [mem_shuffleSequences_succ]
    constructor
    · rintro ⟨d, ds, hd, hds, rfl⟩
      obtain ⟨js, hjs, rfl⟩ := (ih ds).1 hds
      exact ⟨d :: js, ⟨d, js, Nat.le_of_lt_succ hd, hjs, rfl⟩, rfl⟩
    · rintro ⟨_, ⟨j, js, hj, hjs, rfl⟩, rfl⟩
      exact ⟨j, js ++ [0], Nat.lt_succ_of_le hj, (ih _).2 ⟨js, hjs, rfl⟩, rfl⟩

/-! ## Shuffles stay within the list -/

/-- Exchanges position `i` with the first draw, `i - 1` with the second, and so on, unless a
position lies outside. -/
def exchangeDown? (items : Array β) (i : ℕ) : List ℕ → Option (Array β)
  | [] => some items
  | j :: js =>
    if h : i < items.size ∧ j < items.size then exchangeDown? (items.swap i j h.1 h.2) (i - 1) js
    else none

/-- The draws of a shuffle of `n + 1` entries are positions of any list that has position `n`. -/
theorem exchangeDown?_eq {items : Array β} {n : ℕ} (hn : n < items.size) {draws : List ℕ}
    (h : draws ∈ shuffleSequences (n + 1)) :
    exchangeDown? items n draws = some (exchangeDown items n draws) := by
  induction n generalizing items draws with
  | zero =>
    rw [mem_shuffleSequences_one.1 h]
    rfl
  | succ n ih =>
    obtain ⟨j, js, hj, hjs, rfl⟩ := mem_shuffleSequences_succ.1 h
    have hin : j < items.size := by omega
    rw [exchangeDown?, exchangeDown, dif_pos ⟨hn, hin⟩, Array.swapIfInBounds, dif_pos hn,
      dif_pos hin]
    exact ih (by simpa using Nat.lt_of_succ_lt hn) hjs

namespace Generator

/-- A list in random order, unless an exchange leaves it. -/
def shuffle? (g : Generator) (items : List β) : Option (List β × Generator) :=
  let (draws, g) := g.shuffleDraws items.length
  (exchangeDown? items.toArray (items.length - 1) draws).map fun items => (items.toList, g)

/-- The draws of a shuffle keep their bounds. -/
theorem shuffleDraws_mem (g : Generator) (n : ℕ) : (g.shuffleDraws n).1 ∈ shuffleSequences n := by
  induction n using Nat.twoStepInduction generalizing g with
  | zero => exact mem_shuffleSequences_zero.2 rfl
  | one => exact mem_shuffleSequences_one.2 rfl
  | more n _ ih =>
    exact mem_shuffleSequences_succ.2
      ⟨_, _, Nat.le_of_lt_succ (g.below_lt (by omega)), ih (g.below (n + 2)).2, rfl⟩

/-- The exchanges of a shuffle stay within the list. -/
theorem shuffle?_eq (g : Generator) (items : List β) :
    g.shuffle? items = some (g.shuffle items) := by
  cases items with
  | nil => rfl
  | cons item items =>
    have h := exchangeDown?_eq (show items.length < (item :: items).toArray.size by simp)
      (g.shuffleDraws_mem (items.length + 1))
    simp only [shuffle?, List.length_cons, Nat.add_sub_cancel]
    rw [h]
    rfl

end Generator

/-! ## A shuffle draws from a pool -/

/-- What remains of a pool when the drawn entry has been exchanged with the last one. -/
def restDown (pool : List β) (j : ℕ) : List β :=
  (pool.toArray.swapIfInBounds (pool.length - 1) j).toList.dropLast

/-- The drawn entry comes last. -/
theorem swapIfInBounds_eq_restDown_append {pool : List β} {n : ℕ} (hpool : pool.length = n + 1)
    {j : ℕ} {x : β} (h : pool[j]? = some x) :
    (pool.toArray.swapIfInBounds n j).toList = restDown pool j ++ [x] := by
  obtain ⟨hj, rfl⟩ := List.getElem?_eq_some_iff.1 h
  have hn : n < pool.length := by omega
  have hlength : (pool.toArray.swapIfInBounds n j).toList.length - 1 = n := by simp [hpool]
  have hlast : (pool.toArray.swapIfInBounds n j).toList.getLast? = some pool[j] := by
    rw [List.getLast?_eq_getElem?, hlength, Array.getElem?_toList, Array.swapIfInBounds,
      dif_pos (by simpa using hn), dif_pos (by simpa using hj),
      Array.getElem?_eq_getElem (by simpa using hn), Array.getElem_swap_left]
    rfl
  rw [restDown, hpool, Nat.add_sub_cancel]
  exact (List.dropLast_append_getLast? _ hlast).symm

/-- An exchange with the last entry takes the drawn one out of the pool. -/
theorem takesOut_restDown : TakesOut (restDown (β := β)) := by
  intro pool j x hx
  have hj := (List.getElem?_eq_some_iff.1 hx).1
  have hpool : pool.length = pool.length - 1 + 1 := by omega
  refine (List.perm_append_singleton x (restDown pool j)).symm.trans ?_
  rw [← swapIfInBounds_eq_restDown_append hpool hx]
  exact toList_swapIfInBounds_perm pool.toArray (pool.length - 1) j

/-- Exchanges before the last entry leave it in its place. -/
theorem exchangeDown_append (x : β) {pool : List β} {n : ℕ} (hn : n < pool.length)
    {draws : List ℕ} (h : draws ∈ shuffleSequences (n + 1)) :
    (exchangeDown (pool ++ [x]).toArray n draws).toList =
      (exchangeDown pool.toArray n draws).toList ++ [x] := by
  induction n generalizing pool draws with
  | zero =>
    rw [mem_shuffleSequences_one.1 h]
    rfl
  | succ n ih =>
    obtain ⟨j, js, hj, hjs, rfl⟩ := mem_shuffleSequences_succ.1 h
    have hin : j < pool.length := by omega
    have hswap : (pool ++ [x]).toArray.swapIfInBounds (n + 1) j =
        ((pool.toArray.swapIfInBounds (n + 1) j).toList ++ [x]).toArray := by
      apply Array.toList_inj.1
      unfold Array.swapIfInBounds
      rw [dif_pos (by simp; omega), dif_pos (by simp; omega), dif_pos (by simpa using hn),
        dif_pos (by simpa using hin)]
      simp [Array.swap, List.set_append_left, List.getElem_append_left, hn, hin]
    rw [exchangeDown, exchangeDown, hswap, Nat.add_sub_cancel]
    exact ih (by simp; omega) hjs

/-- Read from its end, a shuffled list is what the draws take out of a pool. -/
theorem shuffled_eq_reverse_drawn {n : ℕ} {pool : List β} (hpool : pool.length = n + 1)
    {draws : List ℕ} (h : draws ∈ shuffleSequences (n + 1)) :
    shuffled draws pool = (drawn restDown pool (draws ++ [0])).reverse := by
  rw [shuffled, hpool, Nat.add_sub_cancel]
  induction n generalizing pool draws with
  | zero =>
    obtain ⟨x, rfl⟩ := List.length_eq_one_iff.1 hpool
    rw [mem_shuffleSequences_one.1 h]
    rfl
  | succ n ih =>
    obtain ⟨j, js, hj, hjs, rfl⟩ := mem_shuffleSequences_succ.1 h
    have hx : pool[j]? = some pool[j] := List.getElem?_eq_getElem (by omega)
    have hlength := (takesOut_restDown pool j _ hx).length_eq
    rw [List.length_cons] at hlength
    have hswap : pool.toArray.swapIfInBounds (n + 1) j = (restDown pool j ++ [pool[j]]).toArray :=
      Array.toList_inj.1 (swapIfInBounds_eq_restDown_append hpool hx)
    rw [exchangeDown, hswap, Nat.add_sub_cancel, exchangeDown_append _ (by omega) hjs,
      ih (by omega) hjs, List.cons_append, drawn, hx, List.reverse_append]
    rfl

/-! ## Every arrangement once -/

/-- The selections of all entries of a list without repetitions are its arrangements. -/
theorem mem_selectionsOf_length {items : List β} (hnodup : items.Nodup) {selection : List β} :
    selection ∈ selectionsOf items.length items ↔ selection.Perm items := by
  constructor
  · rintro ⟨hlength, hdistinct, hsubset⟩
    exact (hdistinct.subperm hsubset).perm_of_length_le hlength.ge
  · exact fun hperm => ⟨hperm.length_eq, hperm.nodup_iff.2 hnodup, hperm.subset⟩

/-- Every arrangement of a list without repetitions comes from exactly one sequence of draws. -/
theorem bijOn_shuffled {items : List β} (hnodup : items.Nodup) :
    Set.BijOn (shuffled · items) (shuffleSequences items.length)
      {arrangement : List β | arrangement.Perm items} := by
  cases hitems : items.length with
  | zero =>
    obtain rfl := List.length_eq_zero_iff.1 hitems
    have hdraws : shuffleSequences 0 = {[]} := Set.ext fun _ => mem_shuffleSequences_zero
    have harrangements : {arrangement : List β | arrangement.Perm []} = {[]} :=
      Set.ext fun _ => List.perm_nil
    rw [hdraws, harrangements]
    exact Set.bijOn_singleton.2 rfl
  | succ n =>
    have hdraws : Set.BijOn (· ++ [0]) (shuffleSequences (n + 1))
        (drawSequences (n + 1) (n + 1)) := by
      rw [drawSequences_eq_image]
      exact (List.append_left_injective [0]).injOn.bijOn_image
    have hselect := takesOut_restDown.bijOn_drawn hnodup (le_refl items.length)
    rw [hitems] at hselect
    have harrange : Set.BijOn List.reverse (selectionsOf (n + 1) items)
        {arrangement : List β | arrangement.Perm items} := by
      have hmem : ∀ selection : List β, selection ∈ selectionsOf (n + 1) items ↔
          selection.reverse.Perm items := fun selection => by
        rw [← hitems, mem_selectionsOf_length hnodup, List.reverse_perm']
      refine ⟨fun selection h => (hmem selection).1 h, List.reverse_injective.injOn, ?_⟩
      intro arrangement h
      refine ⟨arrangement.reverse, (hmem _).2 ?_, List.reverse_reverse arrangement⟩
      rwa [List.reverse_reverse]
    exact ((harrange.comp hselect).comp hdraws).congr fun draws h =>
      (shuffled_eq_reverse_drawn hitems h).symm

/-- A list without repetitions has as many arrangements as the factorial of its length. -/
theorem ncard_arrangements {items : List β} (hnodup : items.Nodup) :
    {arrangement : List β | arrangement.Perm items}.ncard = items.length.factorial := by
  classical
  have hall : {arrangement : List β | arrangement.Perm items} =
      (items.permutations.toFinset : Set (List β)) := by
    ext arrangement
    rw [Finset.mem_coe, List.mem_toFinset, List.mem_permutations]
    rfl
  rw [hall, Set.ncard_coe_finset,
    List.toFinset_card_of_nodup (List.nodup_permutations items hnodup), List.length_permutations]

/-- The shuffle of a list makes draws within their bounds, never leaves the list and returns an
arrangement of it, whatever the generator; and every one of the arrangements of a list without
repetitions comes from exactly one sequence of such draws. -/
theorem Generator.shuffle_bijOn_arrangements {items : List β} (hnodup : items.Nodup) :
    (∀ g : Generator, ∃ draws ∈ shuffleSequences items.length, ∃ after,
      g.shuffleDraws items.length = (draws, after) ∧
        g.shuffle items = (shuffled draws items, after) ∧
        g.shuffle? items = some (shuffled draws items, after) ∧
        (shuffled draws items).Perm items) ∧
      Set.BijOn (shuffled · items) (shuffleSequences items.length)
        {arrangement : List β | arrangement.Perm items} ∧
      {arrangement : List β | arrangement.Perm items}.ncard = items.length.factorial :=
  ⟨fun g => ⟨_, g.shuffleDraws_mem items.length, _, rfl, rfl, g.shuffle?_eq items,
    g.shuffle_perm items⟩, bijOn_shuffled hnodup, ncard_arrangements hnodup⟩

/-- Three entries have six arrangements, and the one that moves every entry is reached too. -/
theorem Generator.shuffle_bijOn_arrangements_threeItems :
    [10, 20, 30].Nodup ∧
      (∃ draws after, (Generator.ofSeed 7).shuffle? [10, 20, 30] =
          some (shuffled draws [10, 20, 30], after) ∧
        draws ∈ shuffleSequences 3) ∧
      (∃ draws ∈ shuffleSequences 3, shuffled draws [10, 20, 30] = [20, 30, 10]) ∧
      {arrangement : List ℕ | arrangement.Perm [10, 20, 30]}.ncard = 6 := by
  have hnodup : [10, 20, 30].Nodup := by decide
  obtain ⟨hruns, hbij, hcount⟩ := Generator.shuffle_bijOn_arrangements hnodup
  obtain ⟨draws, hdraws, after, -, -, hshuffle, -⟩ := hruns (Generator.ofSeed 7)
  have hturned : [20, 30, 10].Perm [10, 20, 30] := by decide
  exact ⟨hnodup, ⟨draws, after, hshuffle, hdraws⟩, hbij.surjOn hturned, hcount⟩

end LeadScoring
