import LeadScoring.Proofs.Scalar.Fields
import LeadScoring.Proofs.Scalar.Nearest

/-!
# Order of doubles under rounding

Rounding to the nearest double never passes a double.  A number that is not above a double is
therefore not rounded to a greater one, a difference has the sign of the exact difference, and
adding what is not negative does not lead below the summand.

Main results:

- Definition `Nonneg`: what is neither negative nor not-a-number.
- Theorem `FitsAt.atMost`: rounding does not pass a canonical magnitude, and comes back to it from
  less than half a unit above.
- Theorem `round_cases`: what a magnitude is rounded to.
- Definition `value` and theorem `exists_add_eq_normalize`: exact values, and sums before rounding.
- Theorems `Binary64.le_add_right`, `Binary64.sub_nonneg`, `Binary64.half_nonneg`: sums,
  differences and halves of doubles against their arguments.
-/

open Float.Model Float.Model.UnpackedFloat

namespace LeadScoring.Rounding

/-! ## Signs -/

/-- Neither negative nor not-a-number. -/
def Nonneg : UnpackedFloat → Prop
  | .zero _ => True
  | .infinity s => s = .positive
  | .finite s _ _ _ => s = .positive
  | .notANumber => False

/-- Zero is at most the numbers that are not negative. -/
theorem zero_le_iff {s : Sign} {u : UnpackedFloat} :
    (UnpackedFloat.zero s).le u = true ↔ Nonneg u := by
  match u with
  | .zero s' => cases s <;> cases s' <;> exact iff_of_true rfl trivial
  | .infinity .positive => exact iff_of_true rfl rfl
  | .infinity .negative => exact iff_of_false Bool.false_ne_true (by rintro ⟨⟩)
  | .finite .positive m e hm => exact iff_of_true rfl rfl
  | .finite .negative m e hm => exact iff_of_false Bool.false_ne_true (by rintro ⟨⟩)
  | .notANumber => exact iff_of_false Bool.false_ne_true id

/-! ## Rounding does not pass a double -/

section Nearest

variable {x : ℚ} {n m : ℕ}

/-- The nearest whole number is not above one that the number exceeds by less than a half. -/
theorem Nearest.le_of_lt (h : Nearest x n) (hlt : x < m + 1 / 2) : n ≤ m := by
  have hlow := h.low
  have hnext : (n : ℚ) < m + 1 := by linarith
  have hnext' : n < m + 1 := by exact_mod_cast hnext
  omega

/-- The nearest whole number exceeds no whole number that is an upper bound. -/
theorem Nearest.le_natCast (h : Nearest x n) (hle : x ≤ m) : n ≤ m :=
  h.le_of_lt (by linarith)

/-- The nearest whole number is not below a whole number that is a lower bound. -/
theorem Nearest.natCast_le (h : Nearest x n) (hle : m ≤ x) : m ≤ n := by
  have hhigh := h.high
  have hlt : (m : ℚ) < n + 1 := by linarith
  have hlt' : m < n + 1 := by exact_mod_cast hlt
  omega

end Nearest

/-- Every positive number has an exponent. -/
theorem exists_fitsAt {v : ℚ} (hv : 0 < v) : ∃ g, FitsAt v g := by
  obtain ⟨n, hlow, hhigh⟩ := exists_mem_Ico_zpow hv one_lt_two
  refine ⟨max (n - 52) (-1074), le_max_right _ _, ?_, ?_⟩
  · calc
      v < 2 ^ (n + 1) := hhigh
      _ = 2 ^ (53 + (n - 52)) := by
        congr 1
        omega
      _ ≤ 2 ^ (53 + max (n - 52) (-1074)) := by
        gcongr
        · exact one_le_two
        · exact le_max_left _ _
      _ = 2 ^ 53 * 2 ^ max (n - 52) (-1074) := zpow_add₀ two_ne_zero 53 _
  · rcases le_total (n - 52) (-1074) with hle | hle
    · exact Or.inl (max_eq_right hle)
    · right
      rw [max_eq_left hle]
      calc
        (2 : ℚ) ^ 52 * 2 ^ (n - 52) = 2 ^ (52 + (n - 52)) := (zpow_add₀ two_ne_zero 52 _).symm
        _ = 2 ^ n := by
          congr 1
          omega
        _ ≤ v := hlow

section FitsAt

variable {v : ℚ} {g : ℤ} {r : ℕ}

/-- A number has 53 digits at its exponent, or as many as carry into the next one. -/
theorem FitsAt.nearest_le (hfits : FitsAt v g) (hnearest : Nearest (v / 2 ^ g) r) :
    r ≤ 2 ^ 53 := by
  apply hnearest.le_natCast
  push_cast
  exact ((div_lt_iff₀ (zpow_pos two_pos g)).2 hfits.lt).le

/-- At its own exponent a number is rounded to a full mantissa, unless this exponent is the
smallest. -/
theorem FitsAt.le_nearest (hfits : FitsAt v g) (hnearest : Nearest (v / 2 ^ g) r) :
    g = -1074 ∨ 2 ^ 52 ≤ r := by
  apply hfits.full.imp_right
  intro hfull
  apply hnearest.natCast_le
  push_cast
  exact (le_div_iff₀ (zpow_pos two_pos g)).2 hfull

/-- A number that does not exceed a canonical magnitude by half a unit is rounded at an exponent and
to a mantissa that are not above those of the magnitude. -/
theorem FitsAt.atMost (hfits : FitsAt v g) (hnearest : Nearest (v / 2 ^ g) r) {m : ℕ} {e : ℤ}
    (hm : Canonical m e) (hlt : v < (m + 1 / 2) * 2 ^ e) : AtMost r g m e := by
  obtain ⟨hlog, hmin, -⟩ := canonical_iff.1 hm
  have hge : g ≤ e := by
    rcases hfits.full with hg | hfull
    · omega
    · have hdigits : (m : ℚ) + 1 ≤ 2 ^ 53 := by exact_mod_cast lt_two_pow_53 hlog
      have hlt : (2 : ℚ) ^ (52 + g) < 2 ^ (53 + e) := by
        calc
          (2 : ℚ) ^ (52 + g) = 2 ^ 52 * 2 ^ g := zpow_add₀ two_ne_zero 52 g
          _ < (m + 1 / 2) * 2 ^ e := hfull.trans_lt hlt
          _ ≤ 2 ^ 53 * 2 ^ e := by
            gcongr
            linarith
          _ = 2 ^ (53 + e) := (zpow_add₀ two_ne_zero 53 e).symm
      have hexponent := (zpow_lt_zpow_iff_right₀ one_lt_two).1 hlt
      omega
  rcases hge.lt_or_eq with hlt | rfl
  · exact Or.inl hlt
  · exact Or.inr ⟨rfl, hnearest.le_of_lt ((div_lt_iff₀ (zpow_pos two_pos g)).2 hlt)⟩

/-- A number that is not above a magnitude does not exceed it by half a unit. -/
theorem lt_half_unit_above {m : ℕ} {e : ℤ} (h : v ≤ m * 2 ^ e) : v < (m + 1 / 2) * 2 ^ e := by
  have hunit : (0 : ℚ) < 2 ^ e := zpow_pos two_pos e
  linarith

/-- What a number is carried to is zero, or canonical and not above what the number does not exceed
by half a unit. -/
theorem FitsAt.carried_cases (hfits : FitsAt v g) (hnearest : Nearest (v / 2 ^ g) r) :
    carried r g = .zero .positive ∨
      ∃ (k : ℕ) (f : ℤ) (hk : 0 < k), carried r g = .finite .positive k f hk ∧ Canonical k f ∧
        ∀ {m : ℕ} {e : ℤ}, Canonical m e → v < (m + 1 / 2) * 2 ^ e → AtMost k f m e := by
  have hg := hfits.le
  have hfull := hfits.le_nearest hnearest
  rcases Nat.eq_zero_or_pos r with rfl | hr
  · left
    simp [carried]
  · right
    rcases Nat.lt_or_eq_of_le (hfits.nearest_le hnearest) with hlt | rfl
    · have hlog : r.log2 < 53 := (Nat.log2_lt hr.ne').2 hlt
      refine ⟨r, g, hr, carried_of_lt hr (by omega) hg, ?_, hfits.atMost hnearest⟩
      rw [canonical_iff, ← Nat.le_log2 hr.ne'] at *
      omega
    · refine ⟨2 ^ 52, g + 1, by decide, carried_two_pow hg, ?_, ?_⟩
      · rw [canonical_iff, Nat.log2_two_pow]
        omega
      · -- The carry stays below: a canonical magnitude has less than 54 digits.
        intro m e hm hle
        obtain ⟨hlog, hmin, hform⟩ := canonical_iff.1 hm
        have hm53 := lt_two_pow_53 hlog
        rcases hfits.atMost hnearest hm hle with hlt | ⟨-, hle⟩
        · by_cases hnext : g + 1 < e
          · exact Or.inl hnext
          · have hlog52 : m.log2 = 52 := by omega
            have hm0 : m ≠ 0 := by
              rintro rfl
              simp at hlog52
            exact Or.inr ⟨by omega, (Nat.le_log2 hm0).1 hlog52.ge⟩
        · omega

end FitsAt

/-- A magnitude is rounded to zero, or to a canonical magnitude that is not above what the number
does not exceed by half a unit. -/
theorem round_cases {n : ℕ} (hn : 0 < n) (f : ℤ) :
    round Format.binary64 .positive n f = .zero .positive ∨
      ∃ (r : ℕ) (g : ℤ) (hr : 0 < r),
        round Format.binary64 .positive n f = .finite .positive r g hr ∧ Canonical r g ∧
          ∀ {m : ℕ} {e : ℤ}, Canonical m e → (n : ℚ) * 2 ^ f < (m + 1 / 2) * 2 ^ e →
            AtMost r g m e := by
  obtain ⟨g, hfits⟩ := exists_fitsAt (show (0 : ℚ) < n * 2 ^ f by positivity)
  obtain ⟨q, t, hround, hdigits, hsmall⟩ := exists_digits hn f
  obtain ⟨r, hnearest, hcarried⟩ := roundWithAccuracy_eq_carried hdigits hfits (hsmall g hfits)
  rw [hround, hcarried]
  exact hfits.carried_cases hnearest

/-! ## Signs of results -/

/-- Rounding does not look at the sign. -/
theorem round_negative (n : ℕ) (f : ℤ) :
    round Format.binary64 .negative n f = (round Format.binary64 .positive n f).neg := by
  unfold UnpackedFloat.round roundWithAccuracy
  dsimp only
  split_ifs <;> rfl

/-- A positive mantissa is not rounded to a negative number. -/
theorem nonneg_round {n : ℕ} (hn : 0 < n) (f : ℤ) :
    Nonneg (round Format.binary64 .positive n f) := by
  rcases round_cases hn f with hzero | ⟨r, g, hr, hround, -, -⟩
  · rw [hzero]
    trivial
  · rw [hround]
    rfl

/-- What is not negative before rounding is not negative afterwards. -/
theorem nonneg_normalize {n : ℤ} (hn : 0 ≤ n) (f : ℤ) :
    Nonneg (UnpackedFloat.normalize Format.binary64 n f .positive) := by
  unfold UnpackedFloat.normalize
  rcases hn.lt_or_eq with hpos | rfl
  · rw [Int.compare_eq_gt.2 hpos]
    exact nonneg_round (by omega) f
  · rw [Int.compare_eq_eq.2 rfl]
    trivial

/-- Packing keeps the sign. -/
theorem nonneg_pack {u : UnpackedFloat} (h : Nonneg u) :
    Nonneg (UnpackedFloat.unpack Format.binary64 (UnpackedFloat.pack Format.binary64 u)) := by
  have hfields : ∀ (e : BitVec 11) (m : BitVec 52), e ≠ -1#11 →
      Nonneg (UnpackedFloat.unpack Format.binary64
        (packComponents Format.binary64 .positive e m)) := by
    intro e m he
    unfold UnpackedFloat.unpack
    simp only [unpackMantissa_packComponents, unpackExponent_packComponents,
      unpackSign_packComponents, Sign.ofBitVec_toBitVec, he, if_false]
    split_ifs
    · trivial
    · rfl
    · rfl
  match u, h with
  | .zero s, _ =>
    rw [UnpackedFloat.pack, unpack_packedZero]
    trivial
  | .infinity .positive, _ =>
    rw [UnpackedFloat.pack, unpack_packedInfinity]
    rfl
  | .finite .positive m e hm, _ =>
    unfold UnpackedFloat.pack
    dsimp only
    rw [Int.add_assoc, bias_eq]
    split_ifs with hbig hnormal
    · rw [unpack_packedInfinity]
      rfl
    · apply hfields
      rw [← BitVec.toNat_ne_iff_ne, BitVec.toNat_ofNat]
      change _ ≠ 2047
      change ¬ 2 ^ 11 ≤ _ at hbig
      omega
    · exact hfields _ _ (by decide)

/-! ## Differences and quotients -/

/-- A zero, or a magnitude of a finite double with a sign. -/
def IsNumber : UnpackedFloat → Prop
  | .zero _ => True
  | .finite _ m e _ => Canonical m e ∧ e ≤ 971
  | _ => False

/-- Packing keeps numbers. -/
theorem unpack_pack_of_isNumber {u : UnpackedFloat} (h : IsNumber u) :
    UnpackedFloat.unpack Format.binary64 (UnpackedFloat.pack Format.binary64 u) = u := by
  match u, h with
  | .zero s, _ => exact unpack_packedZero
  | .finite s m e hm, h => exact unpack_pack_of_le hm h.1 h.2

/-- A number is not above itself. -/
theorem le_self {u : UnpackedFloat} (h : IsNumber u) : u.le u = true := by
  match u, h with
  | .zero s, _ => rfl
  | .finite .positive m e hm, _ => exact le_positive_iff.2 (Or.inr ⟨rfl, le_refl m⟩)
  | .finite .negative m e hm, _ => exact le_negative_iff.2 (Or.inr ⟨rfl, le_refl m⟩)

/-- Digits at one exponent are ordered as the magnitudes. -/
theorem shifted_lt {m n : ℕ} {e f t : ℤ} (hm : Canonical m e) (hn : Canonical n f) (hpos : 0 < n)
    (h : ¬ AtMost n f m e) (he : t ≤ e) (hf : t ≤ f) :
    m <<< (e - t).toNat < n <<< (f - t).toNat := by
  rw [Nat.shiftLeft_eq, Nat.shiftLeft_eq]
  unfold AtMost at h
  apply scaled_lt hm hn hpos
  · unfold AtMost
    omega
  · omega
  · omega

/-- The difference of two numbers is not negative unless the first one is below the second. -/
theorem nonneg_sub {u v : UnpackedFloat} (hu : IsNumber u) (hv : IsNumber v)
    (h : ¬ u.le v = true) : Nonneg (UnpackedFloat.sub Format.binary64 u v) := by
  match u, v with
  | .zero s, .zero s' => exact absurd (by cases s <;> cases s' <;> rfl) h
  | .zero s, .finite .positive m e hm => exact absurd rfl h
  | .zero s, .finite .negative m e hm => rfl
  | .finite .negative m e hm, .zero s => exact absurd rfl h
  | .finite .positive m e hm, .zero s => rfl
  | .finite .negative m e hm, .finite .positive n f hn => exact absurd rfl h
  | .finite .positive m e hm, .finite .negative n f hn =>
    apply nonneg_normalize
    simp only [Sign.apply, sub_neg_eq_add]
    positivity
  | .finite .positive m e hm, .finite .positive n f hn =>
    rw [le_positive_iff] at h
    have hlt := shifted_lt hv.1 hu.1 hm h (min_le_right e f) (min_le_left e f)
    apply nonneg_normalize
    simp only [Sign.apply]
    omega
  | .finite .negative m e hm, .finite .negative n f hn =>
    rw [le_negative_iff] at h
    have hlt := shifted_lt hu.1 hv.1 hn h (min_le_left e f) (min_le_right e f)
    apply nonneg_normalize
    simp only [Sign.apply]
    omega

/-- A quotient by a positive number keeps the sign. -/
theorem nonneg_div {u : UnpackedFloat} (hu : Nonneg u) {n : ℕ} (hn : 0 < n) (f : ℤ) :
    Nonneg (UnpackedFloat.div Format.binary64 u (.finite .positive n f hn)) := by
  match u, hu with
  | .zero s, _ => trivial
  | .infinity .positive, _ => rfl
  | .finite .positive m e hm, _ =>
    rw [div_finite]
    unfold roundWithAccuracy
    dsimp only
    split_ifs
    · trivial
    · rfl

/-! ## Exact values -/

/-- The exact value of a number; infinities and not-a-number count as zero. -/
def value : UnpackedFloat → ℚ
  | .finite s m e _ => (s.apply m : ℤ) * 2 ^ e
  | _ => 0

/-- A shifted mantissa has the value of the mantissa. -/
theorem shifted_value {m : ℕ} {e t : ℤ} (ht : t ≤ e) :
    ((m <<< (e - t).toNat : ℕ) : ℚ) * 2 ^ t = m * 2 ^ e := by
  obtain ⟨d, rfl⟩ : ∃ d : ℕ, e = t + d := ⟨(e - t).toNat, by omega⟩
  have hd : (t + d - t).toNat = d := by omega
  rw [hd, Nat.shiftLeft_eq, zpow_add₀ two_ne_zero, zpow_natCast]
  push_cast
  ring

/-- A shifted mantissa with its sign has the value of the mantissa with its sign. -/
theorem apply_shifted_value (s : Sign) {m : ℕ} {e t : ℤ} (ht : t ≤ e) :
    ((s.apply (m <<< (e - t).toNat : ℕ) : ℤ) : ℚ) * 2 ^ t = (s.apply m : ℤ) * 2 ^ e := by
  have hvalue := shifted_value (m := m) ht
  cases s with
  | negative =>
    simp only [Sign.apply, Int.cast_neg, Int.cast_natCast, neg_mul]
    rw [hvalue]
  | positive => exact hvalue

/-- Adding two magnitudes normalizes their exact sum. -/
theorem exists_add_eq_normalize (s s' : Sign) {m n : ℕ} (e f : ℤ) (hm : 0 < m) (hn : 0 < n) :
    ∃ (k : ℤ) (t : ℤ),
      UnpackedFloat.add Format.binary64 (.finite s m e hm) (.finite s' n f hn) =
        UnpackedFloat.normalize Format.binary64 k t .positive ∧
      (k : ℚ) * 2 ^ t = value (.finite s m e hm) + value (.finite s' n f hn) := by
  refine ⟨_, _, rfl, ?_⟩
  rw [Int.cast_add, add_mul]
  exact congrArg₂ _ (apply_shifted_value s (min_le_left e f))
    (apply_shifted_value s' (min_le_right e f))

/-! ## Sums -/

section Sums

variable {m n : ℕ} {e f : ℤ} (hm : 0 < m) (hn : 0 < n)

theorem negative_le {u : UnpackedFloat} (hu : Nonneg u) :
    (UnpackedFloat.finite .negative m e hm).le u = true := by
  match u, hu with
  | .zero s, _ => rfl
  | .infinity .positive, _ => rfl
  | .finite .positive n f hn, _ => rfl

/-- Adding a positive number to a negative one leads upwards. -/
theorem le_pack_add_negative (hcanonical : Canonical m e) (he : e ≤ 971) :
    (UnpackedFloat.finite .negative m e hm).le (UnpackedFloat.unpack Format.binary64
      (UnpackedFloat.pack Format.binary64 (UnpackedFloat.add Format.binary64
        (.finite .negative m e hm) (.finite .positive n f hn)))) = true := by
  obtain ⟨k, t, hadd, hvalue⟩ := exists_add_eq_normalize .negative .positive e f hm hn
  rw [hadd]
  by_cases hnonneg : 0 ≤ k
  · exact negative_le hm (nonneg_pack (nonneg_normalize hnonneg t))
  · obtain ⟨d, rfl⟩ : ∃ d : ℕ, k = -d := ⟨(-k).toNat, by omega⟩
    have hlt : compare (-(d : ℤ)) 0 = .lt := Int.compare_eq_lt.2 (not_le.1 hnonneg)
    unfold UnpackedFloat.normalize
    rw [hlt]
    dsimp only
    rw [neg_neg, Int.toNat_natCast, round_negative]
    rcases round_cases (by omega : 0 < d) t with hzero | ⟨r, g, hr, hround, hcanonical_r, hle⟩
    · rw [hzero]
      exact negative_le hm (nonneg_pack trivial)
    · have hbelow : (d : ℚ) * 2 ^ t ≤ m * 2 ^ e := by
        have hpos : (0 : ℚ) < n * 2 ^ f := by positivity
        simp only [value, Sign.apply] at hvalue
        push_cast at hvalue
        linarith
      have hatMost := hle hcanonical (lt_half_unit_above hbelow)
      have hg : g ≤ 971 := by
        unfold AtMost at hatMost
        omega
      rw [hround]
      change (UnpackedFloat.finite .negative m e hm).le (UnpackedFloat.unpack _
        (UnpackedFloat.pack _ (.finite .negative r g hr))) = true
      rw [unpack_pack_of_le hr hcanonical_r hg]
      exact le_negative_iff.2 hatMost

/-- Adding a positive number to a positive one leads upwards. -/
theorem le_pack_add_positive (hcanonical : Canonical m e) :
    (UnpackedFloat.finite .positive m e hm).le (UnpackedFloat.unpack Format.binary64
      (UnpackedFloat.pack Format.binary64 (UnpackedFloat.add Format.binary64
        (.finite .positive m e hm) (.finite .positive n f hn)))) = true := by
  have hdigits : m * 2 ^ (e - min e f).toNat ≤
      m <<< (e - min e f).toNat + n <<< (f - min e f).toNat := by
    rw [Nat.shiftLeft_eq]
    exact Nat.le_add_right _ _
  obtain ⟨r, g, hr, hround, hcanonical_r, hatMost⟩ :=
    round_of_le hm hcanonical (min_le_left e f) hdigits
  rw [add_positive hm hn, hround]
  rcases unpack_pack (s := .positive) hr hcanonical_r with h | h
  · rw [h]
    exact le_positive_iff.2 hatMost
  · rw [h]
    rfl

/-- Adding what is not negative leads upwards. -/
theorem le_pack_add {u v : UnpackedFloat} (hu : IsNumber u) (hv : Nonneg v) :
    u.le (UnpackedFloat.unpack Format.binary64
      (UnpackedFloat.pack Format.binary64 (UnpackedFloat.add Format.binary64 u v))) = true := by
  match u, v with
  | .zero s, v =>
    rw [zero_le_iff]
    apply nonneg_pack
    match v with
    | .zero s' => cases s <;> cases s' <;> trivial
    | .infinity .positive => rfl
    | .finite .positive n f hn => rfl
  | .finite s m e hm, .zero s' =>
    change (UnpackedFloat.finite s m e hm).le (UnpackedFloat.unpack _
      (UnpackedFloat.pack _ (.finite s m e hm))) = true
    rw [unpack_pack_of_isNumber hu]
    exact le_self hu
  | .finite s m e hm, .infinity .positive =>
    change (UnpackedFloat.finite s m e hm).le (UnpackedFloat.unpack _
      (packedInfinity Format.binary64 .positive)) = true
    rw [unpack_packedInfinity]
    cases s <;> rfl
  | .finite .positive m e hm, .finite .positive n f hn => exact le_pack_add_positive hm hn hu.1
  | .finite .negative m e hm, .finite .positive n f hn =>
    exact le_pack_add_negative hm hn hu.1 hu.2

end Sums

end LeadScoring.Rounding

/-! ## Doubles -/

namespace LeadScoring.Binary64

variable {x y : Float}

theorem isNumber_of_isFinite (h : isFinite x = true) : Rounding.IsNumber x.toModel.unpack := by
  rcases unpack_of_isFinite h with ⟨-, hzero⟩ | ⟨hm, hfinite⟩
  · rw [hzero]
    trivial
  · rw [hfinite]
    exact ⟨canonical_of_isFinite h hm.ne', scale_le h⟩

/-- A double is at least zero exactly if its parts are not those of a negative number. -/
theorem nonneg_iff : (0.0 : Float) ≤ x ↔ Rounding.Nonneg x.toModel.unpack :=
  (le_iff 0.0 x).trans Rounding.zero_le_iff

theorem le_self (hx : isFinite x = true) : x ≤ x :=
  (le_iff x x).2 (Rounding.le_self (isNumber_of_isFinite hx))

/-- A finite double is not above its sum with one that is not negative. -/
theorem le_add_right (hx : isFinite x = true) (hy : (0.0 : Float) ≤ y) : x ≤ x + y := by
  rw [le_iff, unpack_add]
  exact Rounding.le_pack_add (isNumber_of_isFinite hx) (nonneg_iff.1 hy)

/-- The difference of two finite doubles is not negative unless the first one is below the
second. -/
theorem sub_nonneg (hx : isFinite x = true) (hy : isFinite y = true) (h : ¬ x ≤ y) :
    (0.0 : Float) ≤ x - y := by
  rw [le_iff] at h
  rw [nonneg_iff]
  exact Rounding.nonneg_pack
    (Rounding.nonneg_sub (isNumber_of_isFinite hx) (isNumber_of_isFinite hy) h)

/-- Half of what is not negative is not negative. -/
theorem half_nonneg (hx : (0.0 : Float) ≤ x) : (0.0 : Float) ≤ x / 2.0 := by
  rw [nonneg_iff] at hx ⊢
  have htwo : (2.0 : Float).toModel.unpack = .finite .positive (2 ^ 52) (-51) (by decide) := by
    rfl
  rw [unpack_div, htwo]
  exact Rounding.nonneg_pack (Rounding.nonneg_div hx (by decide) (-51))

end LeadScoring.Binary64
