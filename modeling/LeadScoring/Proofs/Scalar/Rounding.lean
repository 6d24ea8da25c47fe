import Mathlib

/-!
# Rounding of doubles

A finite double is a mantissa below `2 ^ 53` times a power of two.  Sums and quotients are first
computed with spare digits and then rounded to such a form.  This module bounds the results of a
sum of two positive doubles from below and of a quotient from above.

Main results:

- Theorem `Rounding.unpack_pack`: packing keeps a canonical mantissa and exponent unless it
  overflows to infinity.
- Theorem `Rounding.le_add`: a sum of positive doubles is at least as large as either of them.
- Theorem `Rounding.div_atMostOne`: the quotient of a double by one that is at least as large is
  at most one.
-/

open Float.Model Float.Model.UnpackedFloat

namespace LeadScoring.Rounding

/-! ## Canonical mantissas -/

theorem targetExponent_eq (x : Int) :
    Format.binary64.targetExponent x = max (x - 53) (-1074) :=
  rfl

/-- A mantissa and an exponent have the form in which doubles are stored: 53 digits, or fewer at
the smallest exponent. -/
def Canonical (m : Nat) (e : Int) : Prop :=
  Format.binary64.targetExponent (totalExponent m e) = e

/-- The canonical form in terms of the number of digits. -/
theorem canonical_iff {m : Nat} {e : Int} :
    Canonical m e ↔ m.log2 ≤ 52 ∧ -1074 ≤ e ∧ (m.log2 = 52 ∨ e = -1074) := by
  simp only [Canonical, targetExponent_eq, totalExponent]
  omega

/-- The order of magnitudes in canonical form: by exponents, then by mantissas. -/
def AtMost (m : Nat) (e : Int) (n : Nat) (f : Int) : Prop :=
  e < f ∨ (e = f ∧ m ≤ n)

/-- Positive doubles compare as their magnitudes. -/
theorem le_positive_iff {m n : Nat} {e f : Int} {hm : 0 < m} {hn : 0 < n} :
    (UnpackedFloat.finite .positive m e hm).le (.finite .positive n f hn) = true ↔
      AtMost m e n f := by
  simp only [UnpackedFloat.le, UnpackedFloat.compare, Option.any_some, AtMost]
  rcases lt_trichotomy e f with h | rfl | h
  · simp [Int.compare_eq_lt.2 h, h]
  · simp [Nat.isLE_compare]
  · simp [Int.compare_eq_gt.2 h, h.le, h.ne']

/-- Negative doubles compare the other way round. -/
theorem le_negative_iff {m n : Nat} {e f : Int} {hm : 0 < m} {hn : 0 < n} :
    (UnpackedFloat.finite .negative m e hm).le (.finite .negative n f hn) = true ↔
      AtMost n f m e := by
  simp only [UnpackedFloat.le, UnpackedFloat.compare, Option.any_some, AtMost]
  rcases lt_trichotomy e f with h | rfl | h
  · simp [Int.compare_eq_lt.2 h, h.le, h.ne']
  · simp [Nat.isGE_compare]
  · simp [Int.compare_eq_gt.2 h, h]

theorem log2_mono {m n : Nat} (h : m ≤ n) : m.log2 ≤ n.log2 := by
  rcases Nat.eq_zero_or_pos m with rfl | hm
  · simp
  · rw [Nat.le_log2 (by omega)]
    exact (Nat.log2_self_le (by omega)).trans h

theorem log2_shift {m k : Nat} (hm : 0 < m) : (m * 2 ^ k).log2 = m.log2 + k := by
  rw [Nat.log2_eq_iff (by positivity)]
  have hlow := Nat.log2_self_le (n := m) (by omega)
  have hhigh := Nat.lt_log2_self (n := m)
  constructor
  · rw [Nat.pow_add]
    exact Nat.mul_le_mul_right _ hlow
  · rw [Nat.add_right_comm, Nat.pow_add]
    exact Nat.mul_lt_mul_of_pos_right hhigh (by positivity)

theorem lt_two_pow_53 {m : Nat} (h : m.log2 ≤ 52) : m < 2 ^ 53 :=
  lt_of_lt_of_le Nat.lt_log2_self (Nat.pow_le_pow_right (by decide) (by omega))

/-! ## Packing -/

theorem unpack_packedInfinity (s : Sign) :
    UnpackedFloat.unpack Format.binary64 (packedInfinity Format.binary64 s) = .infinity s := by
  cases s <;> rfl

/-- The offset between the exponent of a mantissa and the stored one. -/
theorem bias_eq :
    (Format.binary64.exponentBias : Int) + Format.binary64.mantissaBitsWithoutImplicit = 1075 :=
  rfl

/-- The implicit leading digit stands above the stored ones. -/
theorem toNat_implicit (m : BitVec 52) : (1#1 ++ m).toNat = 2 ^ 52 + m.toNat := by
  rw [BitVec.toNat_append, ← Nat.shiftLeft_add_eq_or_of_lt m.isLt]
  rfl

/-- The implicit digit makes a mantissa of 53 digits. -/
theorem log2_implicit (m : BitVec 52) : (1#1 ++ m).toNat.log2 = 52 := by
  have hm := m.isLt
  rw [toNat_implicit, Nat.log2_eq_iff (by omega)]
  omega

/-- Whatever is stored as a finite double is in canonical form. -/
theorem canonical_of_unpack {b : BitVec Format.binary64.numBits} {s : Sign} {m : Nat} {e : Int}
    {hm : 0 < m} (h : UnpackedFloat.unpack Format.binary64 b = .finite s m e hm) :
    Canonical m e := by
  unfold UnpackedFloat.unpack at h
  dsimp only at h
  split_ifs at h with hinf hmantissa hsub hzero
  · simp only [UnpackedFloat.finite.injEq] at h
    obtain ⟨-, rfl, rfl⟩ := h
    have hlt : (unpackMantissa b).toNat < 2 ^ 52 := (unpackMantissa b).isLt
    have hlog : (unpackMantissa b).toNat.log2 < 52 := (Nat.log2_lt (by omega)).2 hlt
    rw [canonical_iff, hsub]
    refine ⟨by omega, ?_, Or.inr ?_⟩ <;> simp [Format.exponentBias]
  · simp only [UnpackedFloat.finite.injEq] at h
    obtain ⟨-, rfl, rfl⟩ := h
    have hpos : 0 < (unpackExponent b).toNat := by
      rw [BitVec.toNat_pos, BitVec.pos_iff_ne_zero]
      exact hsub
    rw [canonical_iff]
    refine ⟨(log2_implicit _).le, ?_, Or.inl (log2_implicit _)⟩
    simp [Format.exponentBias]
    omega

/-- Stored fields with an implicit leading digit unpack to all 53 digits. -/
theorem unpack_packComponents_normal {s : Sign} {m : Nat} {e : Int} (hm : 0 < m)
    (hlog : m.log2 = 52) (hlow : -1074 ≤ e) (hhigh : e + 1075 < 2047) :
    UnpackedFloat.unpack Format.binary64 (packComponents Format.binary64 s
      (BitVec.ofNat 11 (e + 1075).toNat) (BitVec.ofNat 52 m)) = .finite s m e hm := by
  have hbounds := (Nat.log2_eq_iff (by omega)).1 hlog
  have hexponent : (BitVec.ofNat 11 (e + 1075).toNat).toNat = (e + 1075).toNat := by
    rw [BitVec.toNat_ofNat, Nat.mod_eq_of_lt]
    omega
  have hmantissa : (1#1 ++ BitVec.ofNat 52 m).toNat = m := by
    rw [toNat_implicit, BitVec.toNat_ofNat]
    omega
  have hne_ones : BitVec.ofNat 11 (e + 1075).toNat ≠ -1#11 := by
    rw [← BitVec.toNat_ne_iff_ne, hexponent]
    change (e + 1075).toNat ≠ 2047
    omega
  have hne_zero : BitVec.ofNat 11 (e + 1075).toNat ≠ 0#11 := by
    rw [← BitVec.toNat_ne_iff_ne, hexponent]
    change (e + 1075).toNat ≠ 0
    omega
  unfold UnpackedFloat.unpack
  simp only [unpackMantissa_packComponents, unpackExponent_packComponents,
    unpackSign_packComponents, Sign.ofBitVec_toBitVec, hne_ones, hne_zero, if_false, hmantissa,
    hexponent]
  congr 1
  change ((e + 1075).toNat : Int) - (1023 + 52) = e
  omega

/-- Stored fields of the smallest exponent have no implicit digit. -/
theorem unpack_packComponents_subnormal {s : Sign} {m : Nat} (hm : 0 < m) (hlt : m < 2 ^ 52) :
    UnpackedFloat.unpack Format.binary64 (packComponents Format.binary64 s 0#11
      (BitVec.ofNat 52 m)) = .finite s m (-1074) hm := by
  have hmantissa : (BitVec.ofNat 52 m).toNat = m := by
    rw [BitVec.toNat_ofNat, Nat.mod_eq_of_lt hlt]
  have hne_zero : BitVec.ofNat 52 m ≠ 0#52 := by
    rw [← BitVec.toNat_ne_iff_ne, hmantissa]
    change m ≠ 0
    omega
  have hne_ones : (0#11) ≠ -1#11 := by decide
  unfold UnpackedFloat.unpack
  simp only [unpackMantissa_packComponents, unpackExponent_packComponents,
    unpackSign_packComponents, Sign.ofBitVec_toBitVec, hne_ones, hne_zero, if_false, if_true,
    dif_neg, not_false_eq_true, hmantissa]
  rfl

/-- Packing keeps a canonical magnitude whose exponent is not too large. -/
theorem unpack_pack_of_le {s : Sign} {m : Nat} {e : Int} (hm : 0 < m) (h : Canonical m e)
    (he : e ≤ 971) :
    UnpackedFloat.unpack Format.binary64 (UnpackedFloat.pack Format.binary64 (.finite s m e hm)) =
      .finite s m e hm := by
  obtain ⟨hlog, hlow, hform⟩ := canonical_iff.1 h
  have hbits : Format.binary64.mantissaBits = 53 := rfl
  unfold UnpackedFloat.pack
  dsimp only
  rw [Int.add_assoc, bias_eq, if_neg (by omega)]
  split_ifs with hnormal
  · exact unpack_packComponents_normal hm (by omega) hlow (by omega)
  · obtain rfl : e = -1074 := by omega
    have hlt : m < 2 ^ 52 := (Nat.log2_lt (by omega)).1 (by omega)
    exact unpack_packComponents_subnormal hm hlt

/-- Packing keeps a canonical magnitude unless its exponent is too large. -/
theorem unpack_pack {s : Sign} {m : Nat} {e : Int} (hm : 0 < m) (h : Canonical m e) :
    UnpackedFloat.unpack Format.binary64 (UnpackedFloat.pack Format.binary64 (.finite s m e hm)) =
        .finite s m e hm ∨
      UnpackedFloat.unpack Format.binary64 (UnpackedFloat.pack Format.binary64 (.finite s m e hm)) =
        .infinity s := by
  by_cases he : e ≤ 971
  · exact Or.inl (unpack_pack_of_le hm h he)
  · right
    unfold UnpackedFloat.pack
    dsimp only
    rw [Int.add_assoc, bias_eq, if_pos (by omega)]
    exact unpack_packedInfinity s

/-! ## At most one -/

/-- A zero or a positive magnitude that is at most one. -/
def AtMostOne : UnpackedFloat → Prop
  | .zero _ => True
  | .finite .positive m e _ => AtMost m e (2 ^ 52) (-52)
  | _ => False

/-- Stored fields below those of one are at most one. -/
theorem atMostOne_packComponents {e : BitVec 11} {m : BitVec 52}
    (h : e.toNat < 1023 ∨ (e.toNat = 1023 ∧ m = 0#52)) :
    AtMostOne (UnpackedFloat.unpack Format.binary64
      (packComponents Format.binary64 .positive e m)) := by
  have hne_ones : e ≠ -1#11 := by
    rintro rfl
    have : (-1#11 : BitVec 11).toNat = 2047 := rfl
    omega
  unfold UnpackedFloat.unpack
  simp only [unpackMantissa_packComponents, unpackExponent_packComponents,
    unpackSign_packComponents, Sign.ofBitVec_toBitVec, hne_ones, if_false]
  split_ifs with hzero hmantissa
  · trivial
  · left
    rw [hzero]
    decide
  · rcases h with h | ⟨h, rfl⟩
    · left
      change (e.toNat : Int) - (1023 + 52) < -52
      omega
    · right
      rw [h]
      exact ⟨rfl, by decide⟩

/-- Packing keeps what is at most one at most one. -/
theorem atMostOne_pack {u : UnpackedFloat} (h : AtMostOne u) :
    AtMostOne (UnpackedFloat.unpack Format.binary64 (UnpackedFloat.pack Format.binary64 u)) := by
  match u, h with
  | .zero s, _ =>
    rw [UnpackedFloat.pack, unpack_packedZero]
    trivial
  | .finite .positive m e hm, h =>
    have hbits : Format.binary64.mantissaBits = 53 := rfl
    unfold UnpackedFloat.pack
    dsimp only
    rw [Int.add_assoc, bias_eq]
    have hexponent : (BitVec.ofNat 11 (e + 1075).toNat).toNat = (e + 1075).toNat := by
      rw [BitVec.toNat_ofNat, Nat.mod_eq_of_lt]
      rcases h with h | ⟨h, -⟩ <;> omega
    split_ifs with hbig hnormal
    · exfalso
      rcases h with h | ⟨h, -⟩ <;> omega
    · apply atMostOne_packComponents
      rw [hexponent]
      rcases h with h | ⟨rfl, hle⟩
      · left
        omega
      · right
        have hbounds := (Nat.log2_eq_iff (by omega)).1 (show m.log2 = 52 by omega)
        obtain rfl : m = 2 ^ 52 := by omega
        exact ⟨rfl, rfl⟩
    · apply atMostOne_packComponents
      left
      decide

/-! ## Dropping digits -/

theorem mantissa_ofMantissaAndAccuracy (m : Nat) (accuracy : Accuracy) :
    (ExtendedMantissa.ofMantissaAndAccuracy m accuracy).mantissa = m := by
  rcases accuracy with _ | (_ | _ | _) <;> rfl

/-- Shifting a mantissa drops its last digits. -/
theorem mantissa_shiftRight (em : ExtendedMantissa) (k : Nat) :
    (em >>> k).mantissa = em.mantissa / 2 ^ k := by
  change (k.repeat ExtendedMantissa.shiftRightOne em).mantissa = _
  induction k with
  | zero => simp [Nat.repeat]
  | succ k ih =>
    rw [Nat.repeat, ExtendedMantissa.shiftRightOne]
    simp only [ih]
    rw [Nat.div_div_eq_div_mul, ← Nat.pow_succ]

/-- Rounding takes a mantissa or its successor. -/
theorem roundedMantissa_bounds (em : ExtendedMantissa) :
    em.mantissa ≤ em.roundedMantissa ∧ em.roundedMantissa ≤ em.mantissa + 1 := by
  obtain ⟨m, r, s⟩ := em
  cases r <;> cases s <;>
    simp only [ExtendedMantissa.roundedMantissa, ExtendedMantissa.accuracy,
      Accuracy.roundToNearestEven] <;> omega

/-- What rounding makes of a mantissa before a last carry: the mantissa without its `k` surplus
digits, or the successor of that. -/
structure Rounded (m : Nat) (e : Int) (k r : Nat) : Prop where
  surplus : k = (Format.binary64.targetExponent (totalExponent m e) - e).toNat
  low : m / 2 ^ k ≤ r
  high : r ≤ m / 2 ^ k + 1

/-- A rounded magnitude after the last carry. -/
def carried (r : Nat) (e : Int) : UnpackedFloat :=
  let k := (Format.binary64.targetExponent (totalExponent r e) - e).toNat
  if h : r / 2 ^ k = 0 then .zero .positive
  else .finite .positive (r / 2 ^ k) (e + k) (Nat.pos_of_ne_zero h)

/-- Rounding leaves the mantissa without its surplus digits, or the next one, and carries. -/
theorem exists_rounded (m : Nat) (e : Int) (accuracy : Accuracy) :
    ∃ k r, Rounded m e k r ∧
      roundWithAccuracy Format.binary64 .positive m e accuracy = carried r (e + k) := by
  let k := (Format.binary64.targetExponent (totalExponent m e) - e).toNat
  let em := ExtendedMantissa.ofMantissaAndAccuracy m accuracy >>> k
  have hem : em.mantissa = m / 2 ^ k := by
    rw [mantissa_shiftRight, mantissa_ofMantissaAndAccuracy]
  have hbounds := roundedMantissa_bounds em
  rw [hem] at hbounds
  refine ⟨k, em.roundedMantissa, ⟨rfl, hbounds.1, hbounds.2⟩, ?_⟩
  unfold roundWithAccuracy carried shiftToTargetExponent shiftToExponent
  simp only [mantissa_shiftRight, mantissa_ofMantissaAndAccuracy]
  rfl

/-- A mantissa of at most 53 digits has no carry. -/
theorem carried_of_lt {r : Nat} {e : Int} (hr : 0 < r) (hlog : r.log2 ≤ 52) (he : -1074 ≤ e) :
    carried r e = .finite .positive r e hr := by
  have hk : (Format.binary64.targetExponent (totalExponent r e) - e).toNat = 0 := by
    simp only [targetExponent_eq, totalExponent]
    omega
  unfold carried
  simp only [hk, Nat.pow_zero, Nat.div_one, dif_neg (Nat.ne_of_gt hr)]
  congr 1
  omega

/-- A mantissa that has grown to 54 digits gives up its last one. -/
theorem carried_two_pow {e : Int} (he : -1074 ≤ e) :
    carried (2 ^ 53) e = .finite .positive (2 ^ 52) (e + 1) (by decide) := by
  have hk : (Format.binary64.targetExponent (totalExponent (2 ^ 53) e) - e).toNat = 1 := by
    simp only [targetExponent_eq, totalExponent, Nat.log2_two_pow]
    omega
  unfold carried
  simp only [hk]
  rfl

/-- A magnitude of at most one stays so when it is carried. -/
theorem atMostOne_carried {r : Nat} {e : Int} (hr : r ≤ 2 ^ 53) (hlow : -1074 ≤ e)
    (hhigh : e ≤ -53) : AtMostOne (carried r e) := by
  rcases Nat.eq_zero_or_pos r with rfl | hpos
  · simp [carried, AtMostOne]
  · rcases Nat.lt_or_eq_of_le hr with hlt | rfl
    · have hlog : r.log2 < 53 := (Nat.log2_lt (by omega)).2 hlt
      rw [carried_of_lt hpos (by omega) hlow]
      left
      omega
    · rw [carried_two_pow hlow]
      unfold AtMostOne AtMost
      omega

/-! ## Sums and quotients -/

/-- A positive magnitude is rounded at the exponent that leaves it 53 digits, or at the smallest
one, and the rounded mantissa is not below the digits that are kept. -/
theorem exists_round {n : Nat} (hn : 0 < n) (f : Int) :
    ∃ (r : Nat) (t : Int), round Format.binary64 .positive n f = carried r t ∧
      t = max (n.log2 + 1 + f - 53) (-1074) ∧ r ≤ 2 ^ 53 ∧ (t ≠ -1074 → 2 ^ 52 ≤ r) ∧
        (f ≤ t → n / 2 ^ (t - f).toNat ≤ r) := by
  obtain ⟨t, ht⟩ : ∃ t, t = Format.binary64.targetExponent (totalExponent n f) := ⟨_, rfl⟩
  have ht' : t = max (n.log2 + 1 + f - 53) (-1074) := by
    rw [ht, targetExponent_eq, totalExponent]
  obtain ⟨d, hd⟩ : ∃ d, d = (f - t).toNat := ⟨_, rfl⟩
  have hround : round Format.binary64 .positive n f =
      roundWithAccuracy Format.binary64 .positive (n * 2 ^ d) (f - d) .exact := by
    unfold UnpackedFloat.round decreaseExponent
    simp only [← ht, ← hd, Nat.shiftLeft_eq]
  obtain ⟨k, r, ⟨hk, hlow, hhigh⟩, hresult⟩ := exists_rounded (n * 2 ^ d) (f - d) .exact
  rw [targetExponent_eq, totalExponent, log2_shift hn] at hk
  have hexponent : f - d + k = t := by omega
  have hquot_lt : n * 2 ^ d / 2 ^ k < 2 ^ 53 := by
    rw [Nat.div_lt_iff_lt_mul (by positivity), ← Nat.pow_add, ← Nat.log2_lt (by positivity),
      log2_shift hn]
    omega
  refine ⟨r, t, by rw [hround, hresult, hexponent], ht', by omega, fun hne => ?_, fun hft => ?_⟩
  · refine le_trans ?_ hlow
    rw [Nat.le_div_iff_mul_le (by positivity), ← Nat.pow_add, ← Nat.le_log2 (by positivity),
      log2_shift hn]
    omega
  · obtain rfl : d = 0 := by omega
    obtain rfl : k = (t - f).toNat := by omega
    simpa using hlow

/-- Rounding keeps a magnitude at least as large as any canonical one below it. -/
theorem round_of_le {m n : Nat} {e f : Int} (hm : 0 < m) (hcanonical : Canonical m e)
    (hf : f ≤ e) (hle : m * 2 ^ (e - f).toNat ≤ n) :
    ∃ (r : Nat) (g : Int) (hr : 0 < r),
      round Format.binary64 .positive n f = .finite .positive r g hr ∧ Canonical r g ∧
        AtMost m e r g := by
  obtain ⟨hlog, hlow, hform⟩ := canonical_iff.1 hcanonical
  have hn : 0 < n := lt_of_lt_of_le (by positivity) hle
  have hlog_le : m.log2 + (e - f).toNat ≤ n.log2 := by
    rw [← log2_shift hm]
    exact log2_mono hle
  obtain ⟨r, t, hround, ht, hhigh, hdigits, hquot⟩ := exists_round hn f
  have het : e ≤ t := by omega
  have hkept : t = e → m ≤ r := by
    rintro rfl
    exact ((Nat.le_div_iff_mul_le (by positivity)).2 hle).trans (hquot hf)
  have hr : 0 < r := by
    by_cases hne : t = -1074
    · have hmr := hkept (by omega)
      omega
    · have hdigits_r := hdigits hne
      omega
  rw [hround]
  rcases Nat.lt_or_eq_of_le hhigh with hlt | rfl
  · have hrlog : r.log2 < 53 := (Nat.log2_lt (by omega)).2 hlt
    refine ⟨r, t, hr, carried_of_lt hr (by omega) (by omega),
      canonical_iff.2 ⟨by omega, by omega, ?_⟩, ?_⟩
    · by_cases hne : t = -1074
      · exact Or.inr hne
      · have hrlow : 52 ≤ r.log2 := (Nat.le_log2 (by omega)).2 (hdigits hne)
        omega
    · by_cases heq : t = e
      · exact Or.inr ⟨heq.symm, hkept heq⟩
      · left
        omega
  · refine ⟨2 ^ 52, t + 1, by decide, carried_two_pow (by omega),
      canonical_iff.2 ⟨?_, by omega, ?_⟩, ?_⟩
    · rw [Nat.log2_two_pow]
    · left
      rw [Nat.log2_two_pow]
    · left
      omega

/-- The digits of two positive doubles are added at the smaller exponent. -/
theorem add_positive {m n : Nat} {e f : Int} (hm : 0 < m) (hn : 0 < n) :
    add Format.binary64 (.finite .positive m e hm) (.finite .positive n f hn) =
      round Format.binary64 .positive
        (m <<< (e - min e f).toNat + n <<< (f - min e f).toNat) (min e f) := by
  have hpos : 0 < m <<< (e - min e f).toNat + n <<< (f - min e f).toNat := by
    rw [Nat.shiftLeft_eq, Nat.shiftLeft_eq]
    positivity
  have hgt : compare ((m <<< (e - min e f).toNat : Nat) + (n <<< (f - min e f).toNat : Nat) : Int)
      0 = .gt := by
    rw [Int.compare_eq_gt]
    omega
  unfold UnpackedFloat.add decreaseExponent UnpackedFloat.normalize
  simp only [Sign.apply, hgt]
  congr 1

/-- The sum of two positive doubles is at least as large as the second one. -/
theorem le_add {m n : Nat} {e f : Int} (hm : 0 < m) (hn : 0 < n) (hm_canonical : Canonical m e) :
    ∃ (r : Nat) (g : Int) (hr : 0 < r),
      add Format.binary64 (.finite .positive n f hn) (.finite .positive m e hm) =
        .finite .positive r g hr ∧ Canonical r g ∧ AtMost m e r g := by
  rw [add_positive hn hm]
  refine round_of_le hm hm_canonical (min_le_right f e) ?_
  rw [Nat.shiftLeft_eq, Nat.shiftLeft_eq]
  omega

/-- The quotient of two magnitudes is the rounded quotient of their mantissas. -/
theorem div_finite {m n : Nat} {e f : Int} (hm : 0 < m) (hn : 0 < n) :
    div Format.binary64 (.finite .positive m e hm) (.finite .positive n f hn) =
      roundWithAccuracy Format.binary64 .positive (divCore Format.binary64 m e n f).1
        (divCore Format.binary64 m e n f).2.1 (divCore Format.binary64 m e n f).2.2 :=
  rfl

/-- A double divided by itself is one. -/
theorem div_self_atMostOne {m : Nat} {e : Int} (hm : 0 < m) :
    AtMostOne (div Format.binary64 (.finite .positive m e hm) (.finite .positive m e hm)) := by
  have hcore : divCore Format.binary64 m e m e = (2 ^ 53, -53, .exact) := by
    unfold divCore
    simp only [targetExponent_eq, sub_self]
    norm_num
    simp [Nat.shiftLeft_eq, hm, accuracyOfFraction]
  rw [div_finite, hcore]
  right
  exact ⟨rfl, by decide⟩

/-- The smaller of two canonical magnitudes stays smaller when both get digits at one exponent. -/
theorem scaled_lt {m n d b : Nat} {e f : Int} (hm_canonical : Canonical m e)
    (hn_canonical : Canonical n f) (hn : 0 < n) (hle : AtMost m e n f) (hne : ¬ (m = n ∧ e = f))
    (hdigits : e - d = f - b) : m * 2 ^ d < n * 2 ^ b := by
  obtain ⟨hmlog, hmlow, -⟩ := canonical_iff.1 hm_canonical
  obtain ⟨-, -, hnform⟩ := canonical_iff.1 hn_canonical
  rcases hle with hlt | ⟨rfl, hle⟩
  · have hnge : 2 ^ 52 ≤ n := by
      rw [← Nat.le_log2 (by omega)]
      omega
    have hdb : d + 1 ≤ b := by omega
    calc
      m * 2 ^ d < 2 ^ 53 * 2 ^ d :=
        Nat.mul_lt_mul_of_pos_right (lt_two_pow_53 hmlog) (by positivity)
      _ = 2 ^ 52 * 2 ^ (d + 1) := by ring
      _ ≤ n * 2 ^ b := Nat.mul_le_mul hnge (Nat.pow_le_pow_right (by decide) hdb)
  · obtain rfl : d = b := by omega
    exact Nat.mul_lt_mul_of_pos_right (by omega) (by positivity)

/-- The quotient of a double by one that is at least as large is at most one. -/
theorem div_atMostOne {m n : Nat} {e f : Int} (hm : 0 < m) (hn : 0 < n)
    (hm_canonical : Canonical m e) (hn_canonical : Canonical n f) (hle : AtMost m e n f) :
    AtMostOne (div Format.binary64 (.finite .positive m e hm) (.finite .positive n f hn)) := by
  obtain ⟨hmlog, hmlow, hmform⟩ := canonical_iff.1 hm_canonical
  obtain ⟨hnlog, hnlow, hnform⟩ := canonical_iff.1 hn_canonical
  by_cases heq : m = n ∧ e = f
  · obtain ⟨rfl, rfl⟩ := heq
    exact div_self_atMostOne hm
  · obtain ⟨t, ht⟩ : ∃ t, t = min (e - f)
        (Format.binary64.targetExponent (totalExponent m e - totalExponent n f)) := ⟨_, rfl⟩
    have ht' : t = min (e - f) (max (m.log2 + 1 + e - (n.log2 + 1 + f) - 53) (-1074)) := by
      rw [ht, targetExponent_eq, totalExponent, totalExponent]
    have hlog_le : e = f → m.log2 ≤ n.log2 := by
      intro heq
      rcases hle with hlt | ⟨-, hle⟩
      · omega
      · exact log2_mono hle
    have hef : e ≤ f := by
      rcases hle with hlt | ⟨heq, -⟩ <;> omega
    obtain ⟨d, hd⟩ : ∃ d, d = (e - f - t).toNat := ⟨_, rfl⟩
    obtain ⟨b, hb⟩ : ∃ b, b = (-t).toNat := ⟨_, rfl⟩
    obtain ⟨q, hq⟩ : ∃ q, q = m * 2 ^ d / n := ⟨_, rfl⟩
    -- The quotient is below one, and so is its mantissa at the chosen exponent.
    have hqlt : q < 2 ^ b := by
      rw [hq, Nat.div_lt_iff_lt_mul hn, Nat.mul_comm (2 ^ b)]
      exact scaled_lt hm_canonical hn_canonical hn hle heq (by omega)
    have hqlog : q.log2 < b := by
      rcases Nat.eq_zero_or_pos q with hzero | hpos
      · rw [hzero, Nat.log2_zero]
        omega
      · exact (Nat.log2_lt (by omega)).2 hqlt
    have hcore : divCore Format.binary64 m e n f =
        (q, t, accuracyOfFraction (m * 2 ^ d % n) n) := by
      unfold divCore
      simp only [← ht, ← hd, Nat.shiftLeft_eq, ← hq]
    obtain ⟨k, r, ⟨hk, hrlow, hrhigh⟩, hresult⟩ :=
      exists_rounded q t (accuracyOfFraction (m * 2 ^ d % n) n)
    rw [targetExponent_eq, totalExponent] at hk
    have hquot : q / 2 ^ k < 2 ^ 53 := by
      rw [Nat.div_lt_iff_lt_mul (by positivity), ← Nat.pow_add]
      exact lt_of_lt_of_le Nat.lt_log2_self (Nat.pow_le_pow_right (by decide) (by omega))
    rw [div_finite, hcore, hresult]
    exact atMostOne_carried (by omega) (by omega) (by omega)

end LeadScoring.Rounding
