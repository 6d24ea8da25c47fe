import LeadScoring.Proofs.Scalar.Share

/-!
# The parts of a double

A finite double is a zero, or it has a mantissa and an exponent, and it has a sign.  Its word can be
put together again from these parts, so they decide which double it is.

Main results:

- Theorem `Binary64.toNat_packComponents` and its three inverses: the fields of a word by division.
- Theorem `Binary64.pack_unpack`: a word is put together from its parts.
- Theorem `Binary64.unpack_of_isFinite`: the parts of a finite double.
- Theorem `Binary64.eq_of_magnitude`: a finite double is its magnitude with its sign.
-/

open Float.Model Float.Model.UnpackedFloat

namespace LeadScoring.Binary64

/-! ## Words -/

theorem toBitVec_ofBitVec (b : BitVec 1) : (Sign.ofBitVec b).toBitVec = b := by
  revert b
  decide

/-- The word of three fields. -/
theorem toNat_packComponents (s : Sign) (e : BitVec 11) (m : BitVec 52) :
    (packComponents Format.binary64 s e m).toNat =
      s.toBitVec.toNat * 2 ^ 63 + e.toNat * 2 ^ 52 + m.toNat := by
  have he := e.isLt
  have hm := m.isLt
  rw [packComponents, BitVec.toNat_append, BitVec.toNat_append, ← Nat.shiftLeft_add_eq_or_of_lt hm,
    ← Nat.shiftLeft_add_eq_or_of_lt he, Nat.shiftLeft_eq, Nat.shiftLeft_eq]
  change (_ * 2 ^ 11 + _) * 2 ^ 52 + _ = _
  omega

theorem toNat_unpackSign (b : BitVec 64) :
    (@unpackSign Format.binary64 b).toNat = b.toNat / 2 ^ 63 := by
  have hb := b.isLt
  have hextract : (@unpackSign Format.binary64 b).toNat = b.toNat >>> 63 % 2 ^ 1 := by
    simp [unpackSign, BitVec.extractLsb_toNat]
  rw [hextract, Nat.shiftRight_eq_div_pow]
  omega

theorem toNat_unpackExponent (b : BitVec 64) :
    (@unpackExponent Format.binary64 b).toNat = b.toNat / 2 ^ 52 % 2 ^ 11 := by
  have hextract : (@unpackExponent Format.binary64 b).toNat = b.toNat >>> 52 % 2 ^ 11 := by
    simp [unpackExponent, BitVec.extractLsb_toNat]
  rw [hextract, Nat.shiftRight_eq_div_pow]

theorem toNat_unpackMantissa (b : BitVec 64) :
    (@unpackMantissa Format.binary64 b).toNat = b.toNat % 2 ^ 52 := by
  simp [unpackMantissa, BitVec.extractLsb_toNat]

/-- A word is made of its three fields. -/
theorem packComponents_unpack (b : BitVec 64) :
    packComponents Format.binary64 (Sign.ofBitVec (@unpackSign Format.binary64 b))
      (@unpackExponent Format.binary64 b) (@unpackMantissa Format.binary64 b) = b := by
  have hb := b.isLt
  apply BitVec.eq_of_toNat_eq
  rw [toNat_packComponents, toBitVec_ofBitVec, toNat_unpackSign, toNat_unpackExponent,
    toNat_unpackMantissa]
  omega

/-- What a word with a finite exponent stands for: a zero, a small mantissa at the smallest
exponent, or a mantissa with its implicit digit. -/
theorem unpack_cases {b : BitVec 64} (h : @unpackExponent Format.binary64 b ≠ -1#11) :
    (@unpackExponent Format.binary64 b = 0#11 ∧ @unpackMantissa Format.binary64 b = 0#52 ∧
        unpack Format.binary64 b = .zero (Sign.ofBitVec (@unpackSign Format.binary64 b))) ∨
      (@unpackExponent Format.binary64 b = 0#11 ∧
        ∃ hm : 0 < (@unpackMantissa Format.binary64 b).toNat,
          unpack Format.binary64 b = .finite (Sign.ofBitVec (@unpackSign Format.binary64 b))
            (@unpackMantissa Format.binary64 b).toNat (-1074) hm) ∨
      (@unpackExponent Format.binary64 b ≠ 0#11 ∧
        ∃ hm : 0 < 2 ^ 52 + (@unpackMantissa Format.binary64 b).toNat,
          unpack Format.binary64 b = .finite (Sign.ofBitVec (@unpackSign Format.binary64 b))
            (2 ^ 52 + (@unpackMantissa Format.binary64 b).toNat)
            ((@unpackExponent Format.binary64 b).toNat - 1075) hm) := by
  by_cases hzero : @unpackExponent Format.binary64 b = 0#11
  · by_cases hmantissa : @unpackMantissa Format.binary64 b = 0#52
    · left
      refine ⟨hzero, hmantissa, ?_⟩
      unfold UnpackedFloat.unpack
      simp [hzero, hmantissa]
    · right
      left
      have hm : 0 < (@unpackMantissa Format.binary64 b).toNat := by
        rw [BitVec.toNat_pos, BitVec.pos_iff_ne_zero]
        exact hmantissa
      refine ⟨hzero, hm, ?_⟩
      unfold UnpackedFloat.unpack
      simp [hzero, hmantissa]
      rfl
  · right
    right
    refine ⟨hzero, Nat.lt_of_lt_of_le (by decide) (Nat.le_add_right _ _), ?_⟩
    unfold UnpackedFloat.unpack
    dsimp only
    rw [if_neg h, if_neg hzero]
    congr 1
    exact Rounding.toNat_implicit _

/-- A word with a finite exponent is what its parts are packed to. -/
theorem pack_unpack {b : BitVec 64} (h : @unpackExponent Format.binary64 b ≠ -1#11) :
    UnpackedFloat.pack Format.binary64 (unpack Format.binary64 b) = b := by
  have hbits : Format.binary64.mantissaBits = 53 := rfl
  have hmantissa_lt : (@unpackMantissa Format.binary64 b).toNat < 2 ^ 52 := BitVec.isLt _
  conv_rhs => rw [← packComponents_unpack b]
  rcases unpack_cases h with
    ⟨hzero, hmantissa, hunpack⟩ | ⟨hzero, hm, hunpack⟩ | ⟨hzero, hm, hunpack⟩
  · rw [hunpack, hzero, hmantissa]
    rfl
  · have hlog : (@unpackMantissa Format.binary64 b).toNat.log2 < 52 :=
      (Nat.log2_lt hm.ne').2 hmantissa_lt
    rw [hunpack, hzero]
    unfold UnpackedFloat.pack
    dsimp only
    rw [Int.add_assoc, Rounding.bias_eq, if_neg (by decide), if_neg (by omega), BitVec.ofNat_toNat,
      BitVec.setWidth_eq]
  · have hlog : (2 ^ 52 + (@unpackMantissa Format.binary64 b).toNat).log2 = 52 := by
      rw [← Rounding.toNat_implicit, Rounding.log2_implicit]
    have hexponent : (@unpackExponent Format.binary64 b).toNat ≠ 2047 :=
      fun hones => h (BitVec.eq_of_toNat_eq hones)
    have hexponent_lt : (@unpackExponent Format.binary64 b).toNat < 2048 := BitVec.isLt _
    rw [hunpack]
    unfold UnpackedFloat.pack
    dsimp only
    rw [Int.add_assoc, Rounding.bias_eq, Int.sub_add_cancel, Int.toNat_natCast,
      if_neg (by omega), if_pos (by omega), BitVec.ofNat_toNat, BitVec.setWidth_eq]
    congr 1
    apply BitVec.eq_of_toNat_eq
    rw [BitVec.toNat_ofNat]
    omega

/-! ## Parts -/

/-- The sign of a double. -/
def sign (x : Float) : Sign :=
  if isNegative x then .negative else .positive

theorem fractionField_eq (x : Float) :
    fractionField x = (@unpackMantissa Format.binary64 x.toModel.toBits.toBitVec).toNat := by
  rw [toNat_unpackMantissa, fractionField, magnitudeBits]
  change x.toBits.toNat % 2 ^ 63 % 2 ^ 52 = x.toBits.toNat % 2 ^ 52
  omega

theorem sign_eq (x : Float) :
    sign x = Sign.ofBitVec (@unpackSign Format.binary64 x.toModel.toBits.toBitVec) := by
  have hword := x.toBits.toBitVec.isLt
  have hfield := toNat_unpackSign x.toModel.toBits.toBitVec
  have hnegative : isNegative x = true ↔
      (@unpackSign Format.binary64 x.toModel.toBits.toBitVec).toNat = 1 := by
    rw [hfield, isNegative, beq_iff_eq]
    rfl
  unfold sign Sign.ofBitVec
  by_cases hzero : @unpackSign Format.binary64 x.toModel.toBits.toBitVec = 0#1
  · have hpositive : ¬ isNegative x = true := by
      rw [hnegative, hzero]
      decide
    rw [if_neg hpositive, if_pos hzero]
  · have hone : (@unpackSign Format.binary64 x.toModel.toBits.toBitVec).toNat = 1 := by
      have hlt := (@unpackSign Format.binary64 x.toModel.toBits.toBitVec).isLt
      have hne : (@unpackSign Format.binary64 x.toModel.toBits.toBitVec).toNat ≠ 0 := by
        intro h
        exact hzero (BitVec.eq_of_toNat_eq h)
      omega
    rw [if_pos (hnegative.2 hone), if_neg hzero]

/-- The exponent field of a finite double is not all ones. -/
theorem unpackExponent_ne {x : Float} (h : isFinite x = true) :
    @unpackExponent Format.binary64 x.toModel.toBits.toBitVec ≠ -1#11 := by
  intro hones
  have hfinite : exponentField x ≠ 2047 := by simpa [isFinite] using h
  rw [exponentField_eq, hones] at hfinite
  exact hfinite rfl

/-- The exponent field is zero exactly if all of its bits are. -/
theorem exponentField_eq_zero_iff {x : Float} :
    exponentField x = 0 ↔ @unpackExponent Format.binary64 x.toModel.toBits.toBitVec = 0#11 := by
  rw [exponentField_eq]
  exact ⟨fun h => BitVec.eq_of_toNat_eq h, fun h => congrArg BitVec.toNat h⟩

/-- A finite double is a zero, or it has a mantissa and an exponent. -/
theorem unpack_of_isFinite {x : Float} (h : isFinite x = true) :
    (significand x = 0 ∧ x.toModel.unpack = .zero (sign x)) ∨
      ∃ hm : 0 < significand x,
        x.toModel.unpack = .finite (sign x) (significand x) (scale x) hm := by
  have hexponent := exponentField_eq x
  have hfraction := fractionField_eq x
  rw [sign_eq]
  unfold significand scale
  rcases unpack_cases (unpackExponent_ne h) with
    ⟨hzero, hmantissa, hunpack⟩ | ⟨hzero, hm, hunpack⟩ | ⟨hzero, hm, hunpack⟩
  · left
    rw [if_pos (exponentField_eq_zero_iff.2 hzero), hfraction, hmantissa]
    exact ⟨rfl, hunpack⟩
  · right
    rw [if_pos (exponentField_eq_zero_iff.2 hzero), if_pos (exponentField_eq_zero_iff.2 hzero),
      hfraction]
    exact ⟨hm, hunpack⟩
  · right
    rw [if_neg (mt exponentField_eq_zero_iff.1 hzero),
      if_neg (mt exponentField_eq_zero_iff.1 hzero),
      hfraction, hexponent]
    exact ⟨hm, hunpack⟩

theorem eq_of_toModel_eq {x y : Float} (h : x.toModel = y.toModel) : x = y := by
  rcases x with ⟨m⟩
  rcases y with ⟨n⟩
  exact congrArg Float.ofModel h

/-- A finite double is what its parts are packed to. -/
theorem pack_unpack_toModel {x : Float} (h : isFinite x = true) :
    Float.Model.pack x.toModel.unpack = x.toModel := by
  have hword := pack_unpack (unpackExponent_ne h)
  rcases x with ⟨⟨bits, valid⟩⟩
  unfold Float.Model.pack Float.Model.unpack
  rw [Float.Model.mk.injEq]
  exact congrArg UInt64.ofBitVec hword

/-- The magnitude of a finite double is in canonical form. -/
theorem canonical_of_isFinite {x : Float} (h : isFinite x = true) (hx : significand x ≠ 0) :
    Rounding.Canonical (significand x) (scale x) := by
  rcases unpack_of_isFinite h with ⟨hzero, -⟩ | ⟨hm, hunpack⟩
  · exact absurd hzero hx
  · exact Rounding.canonical_of_unpack hunpack

/-- The unit of the last place of a finite double is at most `2 ^ 971`. -/
theorem scale_le {x : Float} (h : isFinite x = true) : scale x ≤ 971 := by
  have hlt : magnitudeBits x < 2 ^ 63 := Nat.mod_lt _ (by decide)
  have hfield : exponentField x < 2048 := by
    rw [exponentField, Nat.div_lt_iff_lt_mul (by decide)]
    exact hlt
  have hfinite : exponentField x ≠ 2047 := by simpa [isFinite] using h
  unfold scale
  split_ifs <;> omega

/-- A finite double is the positive one of its magnitude, or its negative. -/
theorem eq_of_magnitude {x y : Float} (h : isFinite x = true) (hm : 0 < significand x)
    (hy : y.toModel = Float.Model.pack (.finite .positive (significand x) (scale x) hm)) :
    (if isNegative x then -y else y) = x := by
  rcases unpack_of_isFinite h with ⟨hzero, -⟩ | ⟨hpos, hunpack⟩
  · exact absurd hzero hm.ne'
  · have hx := pack_unpack_toModel h
    rw [hunpack, sign] at hx
    split_ifs at hx ⊢ with hnegative
    · have hmagnitude : y.toModel.unpack = .finite .positive (significand x) (scale x) hm := by
        rw [hy]
        exact Rounding.unpack_pack_of_le hm (canonical_of_isFinite h hm.ne') (scale_le h)
      have hneg : (-y).toModel = Float.Model.pack y.toModel.unpack.neg := rfl
      rw [hmagnitude] at hneg
      exact eq_of_toModel_eq (hneg.trans hx)
    · exact eq_of_toModel_eq (hy.trans hx)

/-- A double whose magnitude is zero is one of the two zeros. -/
theorem eq_zero_of_significand {x : Float} (h : isFinite x = true) (hm : significand x = 0) :
    (if isNegative x then -(0.0 : Float) else 0.0) = x := by
  rcases unpack_of_isFinite h with ⟨-, hunpack⟩ | ⟨hpos, -⟩
  · have hx := pack_unpack_toModel h
    rw [hunpack, sign] at hx
    split_ifs at hx ⊢ with hnegative
    · apply eq_of_toModel_eq
      rw [← hx]
      decide
    · apply eq_of_toModel_eq
      rw [← hx]
      decide
  · exact absurd hm hpos.ne'

end LeadScoring.Binary64
