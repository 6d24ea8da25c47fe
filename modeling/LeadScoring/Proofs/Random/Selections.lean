import LeadScoring.Forest.Growth
import LeadScoring.Proofs.Random
import Mathlib.Data.Set.Card
import Mathlib.Data.Nat.Factorial.Basic
import Mathlib.Combinatorics.Enumerative.DoubleCounting

/-!
# Selections without replacement

Each draw takes one entry out of a pool, and what remains is drawn from next, in whatever order it
stands.  If the first draw is below the number of entries and each later bound is one less, every
ordered selection of distinct entries comes from exactly one sequence of draws, whatever the order
of the rest.  A sample exchanges the drawn entry with the first one that has not been drawn, which
is such an order, so no number is selected more often than another.

Main results:

- Definitions `drawSequences`, `selectionsOf`: the draws and what they may select.
- Theorem `TakesOut.bijOn_drawn`: every selection comes from exactly one sequence of draws.
- Theorem `sampled_eq_drawn`: a sample takes entries out of the numbers below its bound.
- Theorem `Generator.sample?_eq`: the exchanges of a sample stay within its pool.
- Theorem `ncard_share`: what renaming the numbers keeps holds of all numbers equally often.
- Theorem `Generator.sample_selectsEvenly`: all of it for the samples that a split draws.
-/

namespace LeadScoring

variable {β : Type}

/-! ## Sequences of draws -/

/-- The sequences of `k` draws, of which the first is below `n` and each later bound is one less. -/
def drawSequences (n k : ℕ) : Set (List ℕ) :=
  {draws | List.Forall₂ (fun i d => d < n - i) (List.range k) draws}

theorem mem_drawSequences_zero {n : ℕ} {draws : List ℕ} :
    draws ∈ drawSequences n 0 ↔ draws = [] :=
  List.forall₂_nil_left_iff

/-- The draws of a sample are a position and the draws for the remaining entries. -/
theorem mem_drawSequences_succ {n k : ℕ} {draws : List ℕ} :
    draws ∈ drawSequences n (k + 1) ↔
      ∃ d ds, d < n ∧ ds ∈ drawSequences (n - 1) k ∧ draws = d :: ds := by
  have hbounds : (fun i d : ℕ => d < n - i.succ) = fun i d => d < n - 1 - i := by
    funext i d
    rw [Nat.succ_eq_add_one, Nat.add_comm, Nat.sub_add_eq]
  change List.Forall₂ _ (List.range (k + 1)) draws ↔ _
  rw [List.range_succ_eq_map, List.forall₂_cons_left_iff]
  simp only [List.forall₂_map_left_iff, hbounds, Nat.sub_zero]
  rfl

/-- A sequence has as many draws as it says. -/
theorem length_of_mem_drawSequences {n k : ℕ} {draws : List ℕ} (h : draws ∈ drawSequences n k) :
    draws.length = k := by
  rw [← h.length_eq, List.length_range]

/-- There are as many sequences as the product of their bounds. -/
theorem ncard_drawSequences (n k : ℕ) : (drawSequences n k).ncard = n.descFactorial k := by
  induction k generalizing n with
  | zero =>
    have hnil : drawSequences n 0 = {[]} := Set.ext fun _ => mem_drawSequences_zero
    rw [hnil, Set.ncard_singleton, Nat.descFactorial_zero]
  | succ k ih =>
    have hcons : drawSequences n (k + 1) =
        (fun p : ℕ × List ℕ => p.1 :: p.2) '' ((Finset.range n : Set ℕ) ×ˢ drawSequences (n - 1) k) := by
      ext draws
      rw [mem_drawSequences_succ]
      simp [eq_comm]
    have hinjective : Function.Injective fun p : ℕ × List ℕ => p.1 :: p.2 := fun p q h =>
      Prod.ext (List.cons.inj h).1 (List.cons.inj h).2
    rw [hcons, Set.ncard_image_of_injective _ hinjective, Set.ncard_prod, ih, Set.ncard_coe_finset,
      Finset.card_range]
    cases n with
    | zero => rw [Nat.zero_mul, Nat.zero_descFactorial_succ]
    | succ n => rw [Nat.succ_descFactorial_succ, Nat.add_sub_cancel]

/-! ## Drawing from a pool -/

/-- The ordered selections of `k` distinct entries of a pool. -/
def selectionsOf (k : ℕ) (pool : List β) : Set (List β) :=
  {selection | selection.length = k ∧ selection.Nodup ∧ selection ⊆ pool}

/-- The entries that draws take out of a pool, where `rest` arranges what remains of it. -/
def drawn (rest : List β → ℕ → List β) : List β → List ℕ → List β
  | _, [] => []
  | pool, d :: ds => pool[d]?.toList ++ drawn rest (rest pool d) ds

/-- What remains after a draw is the pool without the drawn entry, in some order. -/
def TakesOut (rest : List β → ℕ → List β) : Prop :=
  ∀ (pool : List β) (d : ℕ) (x : β), pool[d]? = some x → (x :: rest pool d).Perm pool

namespace TakesOut

variable {rest : List β → ℕ → List β} (h : TakesOut rest)

include h

/-- The drawn entry of a pool without repetitions is not drawn again. -/
theorem remaining {pool : List β} (hnodup : pool.Nodup) {d : ℕ} {x : β} (hx : pool[d]? = some x) :
    x ∉ rest pool d ∧ (rest pool d).Nodup ∧ (rest pool d).length = pool.length - 1 ∧
      ∀ y, y ∈ pool ↔ y = x ∨ y ∈ rest pool d := by
  have hperm := h pool d x hx
  have hcons := List.nodup_cons.1 (hperm.nodup_iff.2 hnodup)
  have hlength := hperm.length_eq
  rw [List.length_cons] at hlength
  exact ⟨hcons.1, hcons.2, by omega, fun y => by rw [← hperm.mem_iff, List.mem_cons]⟩

/-- Draws within their bounds select distinct entries, different draws make different selections,
and every selection is made. -/
theorem bijOn_drawn {pool : List β} (hnodup : pool.Nodup) {k : ℕ} (hk : k ≤ pool.length) :
    Set.BijOn (drawn rest pool) (drawSequences pool.length k) (selectionsOf k pool) := by
  -- The first draw and the first entry determine each other, and the later draws make a selection
  -- of one entry less from what remains.
  induction k generalizing pool with
  | zero =>
    refine ⟨?_, ?_, ?_⟩
    · intro draws hdraws
      rw [mem_drawSequences_zero.1 hdraws]
      exact ⟨rfl, List.nodup_nil, List.nil_subset pool⟩
    · intro draws hdraws others hothers _
      rw [mem_drawSequences_zero.1 hdraws, mem_drawSequences_zero.1 hothers]
    · rintro selection ⟨hlength, -, -⟩
      exact ⟨[], mem_drawSequences_zero.2 rfl, (List.length_eq_zero_iff.1 hlength).symm⟩
  | succ k ih =>
    have hlater : ∀ {d : ℕ} {x : β}, pool[d]? = some x →
        Set.BijOn (drawn rest (rest pool d)) (drawSequences (pool.length - 1) k)
          (selectionsOf k (rest pool d)) := by
      intro d x hx
      obtain ⟨-, hrest, hlength, -⟩ := h.remaining hnodup hx
      rw [← hlength]
      exact ih hrest (by omega)
    refine ⟨?_, ?_, ?_⟩
    · intro draws hdraws
      obtain ⟨d, ds, hd, hds, rfl⟩ := mem_drawSequences_succ.1 hdraws
      have hx := List.getElem?_eq_getElem hd
      obtain ⟨hnew, -, -, hmem⟩ := h.remaining hnodup hx
      obtain ⟨hlength, hdistinct, hsubset⟩ := (hlater hx).mapsTo hds
      rw [drawn, hx]
      refine ⟨congrArg (· + 1) hlength, List.nodup_cons.2 ⟨fun hagain => hnew (hsubset hagain),
        hdistinct⟩, List.cons_subset.2 ⟨(hmem _).2 (.inl rfl), fun y hy => ?_⟩⟩
      exact (hmem y).2 (.inr (hsubset hy))
    · intro draws hdraws others hothers heq
      obtain ⟨d, ds, hd, hds, rfl⟩ := mem_drawSequences_succ.1 hdraws
      obtain ⟨e, es, he, hes, rfl⟩ := mem_drawSequences_succ.1 hothers
      have hx := List.getElem?_eq_getElem hd
      simp only [drawn, hx, List.getElem?_eq_getElem he, Option.toList_some, List.cons_append,
        List.nil_append, List.cons.injEq] at heq
      obtain rfl : d = e := (List.Nodup.getElem_inj_iff hnodup).1 heq.1
      rw [(hlater hx).injOn hds hes heq.2]
    · rintro selection ⟨hlength, hdistinct, hsubset⟩
      obtain ⟨x, xs, rfl⟩ := List.exists_cons_of_length_eq_add_one hlength
      rw [List.nodup_cons] at hdistinct
      rw [List.cons_subset] at hsubset
      obtain ⟨d, hd, hx⟩ := List.getElem_of_mem hsubset.1
      have hx := List.getElem?_eq_some_iff.2 ⟨hd, hx⟩
      obtain ⟨-, -, -, hmem⟩ := h.remaining hnodup hx
      have hxs : xs ∈ selectionsOf k (rest pool d) := by
        refine ⟨Nat.succ.inj hlength, hdistinct.2, fun y hy => ?_⟩
        refine ((hmem y).1 (hsubset.2 hy)).resolve_left ?_
        rintro rfl
        exact hdistinct.1 hy
      obtain ⟨ds, hds, hdrawn⟩ := (hlater hx).surjOn hxs
      refine ⟨d :: ds, mem_drawSequences_succ.2 ⟨d, ds, hd, hds, rfl⟩, ?_⟩
      rw [drawn, hx, hdrawn]
      rfl

end TakesOut

/-! ## Samples -/

/-- What remains of a pool when the drawn entry has been exchanged with the first one. -/
def restUp (pool : List β) (d : ℕ) : List β :=
  (pool.toArray.swapIfInBounds 0 d).toList.tail

/-- The drawn entry comes first. -/
theorem swapIfInBounds_eq_cons_restUp {pool : List β} {d : ℕ} {x : β} (h : pool[d]? = some x) :
    (pool.toArray.swapIfInBounds 0 d).toList = x :: restUp pool d := by
  obtain ⟨hd, rfl⟩ := List.getElem?_eq_some_iff.1 h
  have hpos : 0 < pool.length := Nat.zero_lt_of_lt hd
  have hhead : (pool.toArray.swapIfInBounds 0 d).toList.head? = some pool[d] := by
    rw [List.head?_eq_getElem?, Array.getElem?_toList, Array.swapIfInBounds,
      dif_pos (by simpa using hpos), dif_pos (by simpa using hd),
      Array.getElem?_eq_getElem (by simpa using hpos), Array.getElem_swap_left]
    rfl
  rw [restUp]
  exact (List.cons_head?_tail hhead).symm

/-- An exchange with the first entry takes the drawn one out of the pool. -/
theorem takesOut_restUp : TakesOut (restUp (β := β)) := by
  intro pool d x hx
  rw [← swapIfInBounds_eq_cons_restUp hx]
  exact toList_swapIfInBounds_perm pool.toArray 0 d

/-- Exchanges behind the first entry leave it in its place. -/
theorem exchangeUp_cons (x : β) (pool : List β) (i : ℕ) (draws : List ℕ) :
    (exchangeUp (x :: pool).toArray (i + 1) draws).toList =
      x :: (exchangeUp pool.toArray i draws).toList := by
  induction draws generalizing pool i with
  | nil => rfl
  | cons d draws ih =>
    have hswap : (x :: pool).toArray.swapIfInBounds (i + 1) (i + 1 + d) =
        (x :: (pool.toArray.swapIfInBounds i (i + d)).toList).toArray := by
      apply Array.toList_inj.1
      unfold Array.swapIfInBounds
      rw [show i + 1 + d = i + d + 1 by omega]
      simp only [List.size_toArray, List.length_cons, Nat.add_lt_add_iff_right]
      split_ifs
      · simp [Array.swap]
      · rfl
      · rfl
    rw [exchangeUp, exchangeUp, hswap, ih]

/-- The first entries that exchanges bring about are those that the draws take out. -/
theorem take_exchangeUp {pool : List β} {k : ℕ} (hk : k ≤ pool.length) {draws : List ℕ}
    (h : draws ∈ drawSequences pool.length k) :
    (exchangeUp pool.toArray 0 draws).toList.take draws.length = drawn restUp pool draws := by
  induction k generalizing pool draws with
  | zero =>
    rw [mem_drawSequences_zero.1 h]
    rfl
  | succ k ih =>
    obtain ⟨d, ds, hd, hds, rfl⟩ := mem_drawSequences_succ.1 h
    have hx := List.getElem?_eq_getElem hd
    have hlength := (takesOut_restUp pool d _ hx).length_eq
    rw [List.length_cons] at hlength
    have hrest : pool.length - 1 = (restUp pool d).length := by omega
    have hpool : pool.toArray.swapIfInBounds 0 d = (pool[d] :: restUp pool d).toArray :=
      Array.toList_inj.1 (swapIfInBounds_eq_cons_restUp hx)
    rw [exchangeUp, Nat.zero_add 1, Nat.zero_add d, hpool, exchangeUp_cons, List.length_cons,
      List.take_succ_cons, ih (by omega) (hrest ▸ hds), drawn, hx]
    rfl

/-- A sample takes entries out of the numbers below its bound. -/
theorem sampled_eq_drawn {n k : ℕ} (hk : k ≤ n) {draws : List ℕ} (h : draws ∈ drawSequences n k) :
    sampled n draws = drawn restUp (List.range n) draws := by
  rw [sampled, ← take_exchangeUp (k := k) (by rwa [List.length_range])
    (by rwa [List.length_range]), ← Array.toList_range]

/-- Every ordered selection of distinct numbers comes from exactly one sequence of draws. -/
theorem bijOn_sampled {n k : ℕ} (hk : k ≤ n) :
    Set.BijOn (sampled n) (drawSequences n k) (selectionsOf k (List.range n)) := by
  have hnodup : (List.range n).Nodup := List.nodup_range
  have hbij := takesOut_restUp.bijOn_drawn hnodup (hk.trans_eq List.length_range.symm)
  rw [List.length_range] at hbij
  exact hbij.congr fun draws hdraws => (sampled_eq_drawn hk hdraws).symm

/-- Two of three numbers: the third one comes first, and the first one takes its place. -/
example : sampled 3 [2, 1] = [2, 0] := by decide

/-! ## Samples stay within their pool -/

/-- Exchanges position `i` with the one that stands the first draw after it, `i + 1` with the one
that stands the second draw after it, and so on, unless a position lies outside. -/
def exchangeUp? (items : Array β) (i : ℕ) : List ℕ → Option (Array β)
  | [] => some items
  | d :: ds =>
    if h : i < items.size ∧ i + d < items.size then
      exchangeUp? (items.swap i (i + d) h.1 h.2) (i + 1) ds
    else none

/-- Draws of a sample stay inside the list, so checked exchanges succeed. -/
theorem exchangeUp?_eq {items : Array β} {i k : ℕ} (hk : i + k ≤ items.size) {draws : List ℕ}
    (h : draws ∈ drawSequences (items.size - i) k) :
    exchangeUp? items i draws = some (exchangeUp items i draws) := by
  induction k generalizing items i draws with
  | zero =>
    rw [mem_drawSequences_zero.1 h]
    rfl
  | succ k ih =>
    obtain ⟨d, ds, hd, hds, rfl⟩ := mem_drawSequences_succ.1 h
    have hi : i < items.size := by omega
    have hid : i + d < items.size := by omega
    rw [exchangeUp?, exchangeUp, dif_pos ⟨hi, hid⟩, Array.swapIfInBounds, dif_pos hi, dif_pos hid]
    refine ih (by rw [Array.size_swap]; omega) ?_
    rwa [Array.size_swap, Nat.sub_add_eq]

namespace Generator

/-- A sample, unless an exchange leaves its pool. -/
def sample? (g : Generator) (n k : ℕ) : Option (List ℕ × Generator) :=
  let (draws, g) := g.sampleDraws n (min k n)
  (exchangeUp? (Array.range n) 0 draws).map fun pool => (pool.toList.take (min k n), g)

/-- The draws of a sample keep their bounds. -/
theorem sampleDraws_mem (g : Generator) {n k : ℕ} (hk : k ≤ n) :
    (g.sampleDraws n k).1 ∈ drawSequences n k := by
  induction k generalizing g n with
  | zero => exact mem_drawSequences_zero.2 rfl
  | succ k ih =>
    exact mem_drawSequences_succ.2
      ⟨_, _, g.below_lt (by omega), ih (g.below n).2 (by omega), rfl⟩

/-- The exchanges of a sample stay within its pool. -/
theorem sample?_eq (g : Generator) (n k : ℕ) : g.sample? n k = some (g.sample n k) := by
  have hdraws := g.sampleDraws_mem (Nat.min_le_right k n)
  have hexchange : exchangeUp? (Array.range n) 0 (g.sampleDraws n (min k n)).1 =
      some (exchangeUp (Array.range n) 0 (g.sampleDraws n (min k n)).1) :=
    exchangeUp?_eq (k := min k n) (by simp) (by simpa using hdraws)
  simp only [sample?, sample, hexchange, sampled, length_of_mem_drawSequences hdraws]
  rfl

end Generator

/-! ## Equal shares -/

section Shares

variable {n k : ℕ} (hk : k ≤ n)

include hk

theorem finite_drawSequences : (drawSequences n k).Finite := by
  refine Set.finite_of_ncard_pos ?_
  rw [ncard_drawSequences]
  exact Nat.descFactorial_pos.2 hk

/-- There are as many draws with a property of their selection as selections with it. -/
theorem ncard_sampled (P : List ℕ → Prop) :
    {draws ∈ drawSequences n k | P (sampled n draws)}.ncard =
      {selection ∈ selectionsOf k (List.range n) | P selection}.ncard := by
  have hbij := bijOn_sampled hk
  have himage : sampled n '' {draws ∈ drawSequences n k | P (sampled n draws)} =
      {selection ∈ selectionsOf k (List.range n) | P selection} := by
    rw [← hbij.image_eq]
    ext selection
    constructor
    · rintro ⟨draws, ⟨hdraws, hP⟩, rfl⟩
      exact ⟨⟨draws, hdraws, rfl⟩, hP⟩
    · rintro ⟨⟨draws, hdraws, rfl⟩, hP⟩
      exact ⟨draws, ⟨hdraws, hP⟩, rfl⟩
  rw [← himage]
  exact ((hbij.injOn.mono fun draws h => h.1).ncard_image).symm

omit hk in
/-- Exchanging two numbers turns the selections of one into those of the other. -/
theorem ncard_selections_swap {P : ℕ → List ℕ → Prop}
    (hsymm : ∀ (σ : Equiv.Perm ℕ) (a : ℕ) (selection : List ℕ),
      P a selection → P (σ a) (selection.map σ)) {a b : ℕ} (ha : a < n) (hb : b < n) :
    {selection ∈ selectionsOf k (List.range n) | P a selection}.ncard =
      {selection ∈ selectionsOf k (List.range n) | P b selection}.ncard := by
  have hkeeps : ∀ {c d : ℕ}, c < n → d < n → ∀ selection ∈ selectionsOf k (List.range n),
      P c selection → selection.map (Equiv.swap c d) ∈
        {selection ∈ selectionsOf k (List.range n) | P d selection} := by
    rintro c d hc hd selection ⟨hlength, hdistinct, hsubset⟩ hP
    refine ⟨⟨by rw [List.length_map, hlength], hdistinct.map (Equiv.injective _), ?_⟩, ?_⟩
    · intro x hx
      obtain ⟨y, hy, rfl⟩ := List.mem_map.1 hx
      have hy := List.mem_range.1 (hsubset hy)
      rw [List.mem_range, Equiv.swap_apply_def]
      split_ifs <;> assumption
    · simpa using hsymm (Equiv.swap c d) c selection hP
  refine Set.ncard_congr (fun selection _ => selection.map (Equiv.swap a b))
    (fun selection h => hkeeps ha hb selection h.1 h.2) ?_ fun selection h => ?_
  · exact fun _ _ _ _ heq => List.map_injective_iff.2 (Equiv.injective _) heq
  · refine ⟨selection.map (Equiv.swap b a), hkeeps hb ha selection h.1 h.2, ?_⟩
    have hback : ⇑(Equiv.swap a b) ∘ ⇑(Equiv.swap b a) = id :=
      funext fun x => by simp [Equiv.swap_comm b a]
    rw [List.map_map, hback, List.map_id]

/-- If renaming the numbers keeps a property of a number in a selection, and each selection has the
property for `c` numbers, then every number below `n` has it in the share `c / n` of the draws. -/
theorem ncard_share {P : ℕ → List ℕ → Prop} {c : ℕ}
    (hsymm : ∀ (σ : Equiv.Perm ℕ) (a : ℕ) (selection : List ℕ),
      P a selection → P (σ a) (selection.map σ))
    (hcount : ∀ selection ∈ selectionsOf k (List.range n),
      {a | a < n ∧ P a selection}.ncard = c) {a : ℕ} (ha : a < n) :
    n * {draws ∈ drawSequences n k | P a (sampled n draws)}.ncard =
      c * (drawSequences n k).ncard := by
  classical
  have hfinite : (selectionsOf k (List.range n)).Finite :=
    (bijOn_sampled hk).image_eq ▸ (finite_drawSequences hk).image _
  have hall : (drawSequences n k).ncard = hfinite.toFinset.card := by
    rw [← Set.ncard_eq_toFinset_card _ hfinite, ← (bijOn_sampled hk).image_eq,
      (bijOn_sampled hk).injOn.ncard_image]
  have hnumber : ∀ b, {selection ∈ selectionsOf k (List.range n) | P b selection}.ncard =
      (hfinite.toFinset.filter (P b)).card := by
    intro b
    rw [← Set.ncard_coe_finset, Finset.coe_filter]
    simp only [Set.Finite.mem_toFinset]
  have hselection : ∀ selection ∈ hfinite.toFinset,
      ((Finset.range n).filter (P · selection)).card = c := by
    intro selection hselection
    rw [← hcount selection (hfinite.mem_toFinset.1 hselection), ← Set.ncard_coe_finset,
      Finset.coe_filter]
    simp only [Finset.mem_range]
  calc n * {draws ∈ drawSequences n k | P a (sampled n draws)}.ncard
      = ∑ b ∈ Finset.range n, {selection ∈ selectionsOf k (List.range n) | P b selection}.ncard := by
        rw [ncard_sampled hk, Finset.sum_const_nat fun b hb =>
          ncard_selections_swap hsymm (Finset.mem_range.1 hb) ha, Finset.card_range]
    _ = ∑ b ∈ Finset.range n, (hfinite.toFinset.filter (P b)).card :=
        Finset.sum_congr rfl fun b _ => hnumber b
    _ = ∑ selection ∈ hfinite.toFinset, ((Finset.range n).filter (P · selection)).card :=
        Finset.sum_card_bipartiteAbove_eq_sum_card_bipartiteBelow P
    _ = c * (drawSequences n k).ncard := by
        rw [Finset.sum_const_nat hselection, hall, Nat.mul_comm]

end Shares

/-- Draws select `k` of `n` numbers without preference: every ordered selection comes from exactly
one sequence of draws, every number stands at every place in the same share of the sequences, and
is selected in the share `k / n` of them. -/
structure SelectsEvenly (n k : ℕ) : Prop where
  bijOn : Set.BijOn (sampled n) (drawSequences n k) (selectionsOf k (List.range n))
  ncard_draws : (drawSequences n k).ncard = n.descFactorial k
  at_place : ∀ place < k, ∀ a < n,
    n * {draws ∈ drawSequences n k | (sampled n draws)[place]? = some a}.ncard =
      (drawSequences n k).ncard
  selected : ∀ a < n,
    n * {draws ∈ drawSequences n k | a ∈ sampled n draws}.ncard = k * (drawSequences n k).ncard

/-- The draws of a sample select without preference. -/
theorem selectsEvenly {n k : ℕ} (hk : k ≤ n) : SelectsEvenly n k where
  bijOn := bijOn_sampled hk
  ncard_draws := ncard_drawSequences n k
  at_place place hplace a ha := by
    rw [← Nat.one_mul (drawSequences n k).ncard]
    refine ncard_share hk (P := fun b selection => selection[place]? = some b) ?_ ?_ ha
    · intro σ b selection hb
      rw [List.getElem?_map, hb, Option.map_some]
    · rintro selection ⟨rfl, -, hsubset⟩
      have hone : {b | b < n ∧ selection[place]? = some b} = {selection[place]} := by
        ext b
        rw [Set.mem_singleton_iff, List.getElem?_eq_getElem hplace, eq_comm (a := b)]
        refine ⟨fun h => Option.some.inj h.2, ?_⟩
        rintro rfl
        exact ⟨List.mem_range.1 (hsubset (List.getElem_mem hplace)), rfl⟩
      rw [hone, Set.ncard_singleton]
  selected a ha := by
    refine ncard_share hk (P := fun b selection => b ∈ selection) ?_ ?_ ha
    · exact fun σ b selection hb => List.mem_map_of_mem hb
    · rintro selection ⟨rfl, hdistinct, hsubset⟩
      have hmembers : {b | b < n ∧ b ∈ selection} = (selection.toFinset : Set ℕ) := by
        ext b
        rw [Finset.mem_coe, List.mem_toFinset]
        exact and_iff_right_of_imp fun hb => List.mem_range.1 (hsubset hb)
      rw [hmembers, Set.ncard_coe_finset, List.toFinset_card_of_nodup hdistinct]

/-- A sample of `k` numbers below `n` makes `min k n` draws within their bounds, never leaves its
pool and returns distinct numbers below `n`; and such draws select without preference.  In
particular the features that a split looks at are selected so. -/
theorem Generator.sample_selectsEvenly :
    (∀ n k : ℕ, SelectsEvenly n (min k n) ∧
      ∀ g : Generator, ∃ draws ∈ drawSequences n (min k n), ∃ after,
        g.sampleDraws n (min k n) = (draws, after) ∧ g.sample n k = (sampled n draws, after) ∧
          g.sample? n k = some (sampled n draws, after) ∧
          sampled n draws ∈ selectionsOf (min k n) (List.range n)) ∧
    ∀ {α : Type} [Scalar α] (t : TrainingTable α) (config : TreeConfig) (rows : List ℕ)
      (counts : ClassCounts α) (g : Generator),
      SelectsEvenly t.width (min (config.maxFeatures.resolve t.width) t.width) ∧
        ∃ draws ∈ drawSequences t.width (min (config.maxFeatures.resolve t.width) t.width),
          (t.bestCut? config rows counts g).1 =
            t.bestCutOn? config rows counts (sampled t.width draws) := by
  have heven : ∀ n k : ℕ, SelectsEvenly n (min k n) := fun n k =>
    selectsEvenly (Nat.min_le_right k n)
  have hdraws : ∀ (n k : ℕ) (g : Generator),
      (g.sampleDraws n (min k n)).1 ∈ drawSequences n (min k n) := fun n k g =>
    g.sampleDraws_mem (Nat.min_le_right k n)
  refine ⟨fun n k => ⟨heven n k, fun g => ?_⟩, fun t config rows counts g => ?_⟩
  · exact ⟨_, hdraws n k g, _, rfl, rfl, g.sample?_eq n k, (heven n k).bijOn.mapsTo (hdraws n k g)⟩
  · exact ⟨heven _ _, _, hdraws _ _ g, rfl⟩

end LeadScoring
