import SmallLisp.Number.Text
import SmallLisp.Proofs.Number.Rounding

/-!
# The bits of doubles

A double is sixty-four bits: a sign, an exponent and a fraction. A result that was rounded to a
double is packed into bits and found there again (`unpack_pack_unpacked`).

The text of a number is computed from the same bits: `parts` are the mantissa and the exponent that
the shortest decimal is looked for with. They are the parts of the number itself, for every finite
number but the zeros (`unpack_toModel`).
-/

namespace SmallLisp.Number

open Float.Model Float.Model.UnpackedFloat
open Decimal (Binary)

variable {b : Binary} {v : BitVec Format.binary64.numBits} {sign : UnpackedFloat.Sign}

/-! ### The three fields -/

theorem unpackSign_packComponents {spec : Format} {exponent : BitVec spec.exponentBits}
    {mantissa : BitVec spec.mantissaBitsWithoutImplicit} :
    unpackSign (packComponents spec sign exponent mantissa) = sign.toBitVec := by
  ext i hi
  obtain rfl : i = 0 := by omega
  delta unpackSign
  simp [packComponents, BitVec.getLsbD_append, BitVec.getElem_append]

theorem ofBitVec_toBitVec (sign : UnpackedFloat.Sign) :
    UnpackedFloat.Sign.ofBitVec sign.toBitVec = sign := by
  cases sign <;> rfl

theorem toNat_unpackMantissa (v : BitVec Format.binary64.numBits) :
    (unpackMantissa v).toNat = v.toNat % 2 ^ 52 := by
  rw [unpackMantissa, BitVec.toNat_cast, BitVec.extractLsb_toNat]
  rfl

theorem toNat_unpackExponent (v : BitVec Format.binary64.numBits) :
    (unpackExponent v).toNat = v.toNat / 2 ^ 52 % 2 ^ 11 := by
  rw [unpackExponent, BitVec.toNat_cast, BitVec.extractLsb_toNat, Nat.shiftRight_eq_div_pow]
  rfl

theorem toNat_unpackSign (v : BitVec Format.binary64.numBits) :
    (unpackSign v).toNat = v.toNat / 2 ^ 63 % 2 := by
  delta unpackSign
  rw [BitVec.toNat_cast, BitVec.extractLsb_toNat, Nat.shiftRight_eq_div_pow]
  rfl

theorem toNat_implicit_append (mantissa : BitVec 52) :
    (1#1 ++ mantissa).toNat = 2 ^ 52 + mantissa.toNat := by
  rw [BitVec.toNat_append, ← Nat.shiftLeft_add_eq_or_of_lt mantissa.isLt]
  rfl

theorem finite_eq_of_eq {mantissa mantissa' : Nat} (h : mantissa = mantissa') (exponent : Int)
    (hpos : 0 < mantissa) :
    UnpackedFloat.finite sign mantissa exponent hpos
      = .finite sign mantissa' exponent (h ▸ hpos) := by
  subst h
  rfl

/-- Bits with the lowest exponent stand for the double of their fraction. -/
theorem unpack_subnormal (hb : b.IsDouble)
    (hsign : UnpackedFloat.Sign.ofBitVec (unpackSign v) = sign)
    (hexponent : (unpackExponent v).toNat = 0) (hmantissa : (unpackMantissa v).toNat = b.mantissa)
    (hlowest : b.exponent = -1074) :
    UnpackedFloat.unpack .binary64 v = hb.unpacked sign := by
  obtain ⟨mantissa, exponent, boundary⟩ := b
  dsimp only at hmantissa hlowest
  subst hmantissa hlowest hsign
  -- a zero exponent field and a fraction that is not zero: the second branch of the decoder
  have hzero : unpackExponent v = 0#_ := BitVec.eq_of_toNat_eq hexponent
  have hne : unpackMantissa v ≠ 0#_ := by
    intro hmantissa
    have hpos : 0 < (unpackMantissa v).toNat := hb.pos
    rw [hmantissa] at hpos
    exact absurd hpos (by decide)
  delta UnpackedFloat.unpack
  dsimp only
  rw [hzero, if_neg (by decide), if_pos rfl, dif_neg hne]
  rfl

/-- Other bits stand for a double with the implicit leading one. -/
theorem unpack_normal (hb : b.IsDouble) (hsign : UnpackedFloat.Sign.ofBitVec (unpackSign v) = sign)
    (hlow : 0 < (unpackExponent v).toNat) (hhigh : (unpackExponent v).toNat < 2047)
    (hmantissa : 2 ^ 52 + (unpackMantissa v).toNat = b.mantissa)
    (hexponent : (unpackExponent v).toNat - 1075 = b.exponent) :
    UnpackedFloat.unpack .binary64 v = hb.unpacked sign := by
  obtain ⟨mantissa, exponent, boundary⟩ := b
  dsimp only at hmantissa hexponent
  subst hmantissa hexponent hsign
  -- the exponent field is neither that of zero and the subnormal numbers nor that of infinity
  have hzero : unpackExponent v ≠ 0#_ := by
    intro hzero
    rw [hzero] at hlow
    exact absurd hlow (by decide)
  have hones : unpackExponent v ≠ -1#_ := by
    intro hones
    rw [hones] at hhigh
    exact absurd hhigh (by decide)
  delta UnpackedFloat.unpack
  dsimp only
  rw [if_neg hones, if_neg hzero]
  exact finite_eq_of_eq (toNat_implicit_append _) _ _

/-- **What is packed into bits is found there again.** -/
theorem unpack_pack_unpacked (hb : b.IsDouble) (sign : UnpackedFloat.Sign) :
    UnpackedFloat.unpack .binary64 (UnpackedFloat.pack .binary64 (hb.unpacked sign))
      = hb.unpacked sign := by
  have hlow := hb.le_exponent
  have hhigh := hb.exponent_le
  have hpos := hb.pos
  -- the exponent field as a natural number
  obtain ⟨biased, hbiased⟩ : ∃ biased : Nat, b.exponent + 1023 + 52 = biased :=
    Int.eq_ofNat_of_zero_le (by omega)
  -- the exponent is in range, so the encoder does not overflow
  have hpack : UnpackedFloat.pack .binary64 (hb.unpacked sign)
      = if b.mantissa.log2 + 1 = 53 then
          packComponents .binary64 sign (BitVec.ofNat 11 biased) (BitVec.ofNat 52 b.mantissa)
        else packComponents .binary64 sign 0#11 (BitVec.ofNat 52 b.mantissa) := by
    change (if 2048 ≤ (b.exponent + 1023 + 52).toNat + 1 then _ else
      if b.mantissa.log2 + 1 = 53 then
        packComponents .binary64 sign (BitVec.ofNat 11 (b.exponent + 1023 + 52).toNat) _
      else _) = _
    rw [hbiased, Int.toNat_natCast, if_neg (by omega)]
  rw [hpack]
  have hsign : ∀ exponent mantissa, UnpackedFloat.Sign.ofBitVec
      (unpackSign (packComponents .binary64 sign exponent mantissa)) = sign := by
    intro exponent mantissa
    rw [unpackSign_packComponents, ofBitVec_toBitVec]
  by_cases hfull : 2 ^ 52 ≤ b.mantissa
  · -- a mantissa of 53 bits: the leading one is not stored, and the number is normal
    have hlog : b.mantissa.log2 + 1 = 53 := by
      have hlower := (Nat.le_log2 hpos.ne').2 hfull
      have hupper := (Nat.log2_lt hpos.ne').2 hb.lt
      omega
    have hexponent : (BitVec.ofNat 11 biased).toNat = biased := by
      rw [BitVec.toNat_ofNat, Nat.mod_eq_of_lt (by omega)]
    have hfraction : 2 ^ 52 + (BitVec.ofNat 52 b.mantissa).toNat = b.mantissa := by
      have hlt := hb.lt
      rw [BitVec.toNat_ofNat]
      omega
    rw [if_pos hlog]
    refine unpack_normal hb (hsign _ _) ?_ ?_ ?_ ?_
    · rw [unpackExponent_packComponents, hexponent]
      omega
    · rw [unpackExponent_packComponents, hexponent]
      omega
    · rw [unpackMantissa_packComponents, hfraction]
    · rw [unpackExponent_packComponents, hexponent]
      omega
  · -- a shorter mantissa has the lowest exponent, and is stored as it is under a zero field
    have hlog : ¬ b.mantissa.log2 + 1 = 53 := by
      have hupper := (Nat.log2_lt hpos.ne').2 (Nat.lt_of_not_le hfull)
      omega
    rw [if_neg hlog]
    refine unpack_subnormal hb (hsign _ _) ?_ ?_ (hb.full.resolve_left hfull)
    · rw [unpackExponent_packComponents]
      rfl
    · rw [unpackMantissa_packComponents, BitVec.toNat_ofNat,
        Nat.mod_eq_of_lt (Nat.lt_of_not_le hfull)]

/-! ### The bits of a double -/

/-- The bits of positive finite doubles lie between those of zero and those of infinity. -/
theorem isDouble_ofBits {magnitude : Nat} (hpos : 0 < magnitude) (hlt : magnitude < 2047 * 2 ^ 52) :
    (Binary.ofBits magnitude).IsDouble := by
  have hbiased : magnitude / 2 ^ 52 < 2047 := (Nat.div_lt_iff_lt_mul (by decide)).2 hlt
  have hfraction : magnitude % 2 ^ 52 < 2 ^ 52 := Nat.mod_lt _ (by decide)
  change (if magnitude / 2 ^ 52 = 0 then (⟨magnitude % 2 ^ 52, -1074, false⟩ : Binary)
    else ⟨2 ^ 52 + magnitude % 2 ^ 52, (magnitude / 2 ^ 52 : Nat) - 1075,
      magnitude % 2 ^ 52 = 0 && 1 < magnitude / 2 ^ 52⟩).IsDouble
  split
  · next hzero =>
    -- the lowest exponent, without the implicit leading one
    have hsmall : magnitude < 2 ^ 52 := by
      rcases Nat.div_eq_zero_iff.1 hzero with habsurd | hsmall
      · exact absurd habsurd (by decide)
      · exact hsmall
    rw [Nat.mod_eq_of_lt hsmall]
    exact ⟨hpos, by dsimp only; omega, le_rfl, by dsimp only; omega, .inr rfl,
      ⟨nofun, fun h => absurd h.2 (lt_irrefl _)⟩⟩
  · next hne =>
    generalize magnitude / 2 ^ 52 = biased at *
    generalize magnitude % 2 ^ 52 = fraction at *
    refine ⟨by dsimp only; omega, by dsimp only; omega, by dsimp only; omega, by dsimp only; omega,
      .inl (Nat.le_add_right _ _), ?_⟩
    rw [Bool.and_eq_true, decide_eq_true_eq, decide_eq_true_eq]
    dsimp only
    omega

/-- The bits of a number, sign apart. -/
def magnitude (x : Float) : Nat :=
  x.toBits.toNat % Binary.signBit

/-- The parts of a number, sign apart. -/
def parts (x : Float) : Binary :=
  Binary.ofBits (magnitude x)

/-- The sign bit of a number. -/
def isNegative (x : Float) : Bool :=
  Binary.signBit ≤ x.toBits.toNat

/-- The sign that a sign bit stands for. -/
def signOf (negative : Bool) : UnpackedFloat.Sign :=
  if negative then .negative else .positive

theorem toNat_unpackExponent_bits (x : Float) :
    (@unpackExponent .binary64 x.toModel.toBits.toBitVec).toNat = magnitude x / 2 ^ 52 := by
  rw [toNat_unpackExponent]
  exact (Nat.mod_mul_right_div_self x.toBits.toNat (2 ^ 52) (2 ^ 11)).symm

theorem toNat_unpackMantissa_bits (x : Float) :
    (@unpackMantissa .binary64 x.toModel.toBits.toBitVec).toNat = magnitude x % 2 ^ 52 := by
  rw [toNat_unpackMantissa]
  exact (Nat.mod_mul_right_mod x.toBits.toNat (2 ^ 52) (2 ^ 11)).symm

theorem ofBitVec_unpackSign_bits (x : Float) :
    UnpackedFloat.Sign.ofBitVec (@unpackSign .binary64 x.toModel.toBits.toBitVec)
      = signOf (isNegative x) := by
  have hlt : x.toBits.toNat < 2 ^ 64 := x.toBits.toNat_lt
  -- the sign field is the bit above all others, which is set from `2 ^ 63` on
  have hbit : @unpackSign .binary64 x.toModel.toBits.toBitVec = 0#1 ↔ isNegative x = false := by
    rw [← BitVec.toNat_inj, toNat_unpackSign, isNegative, decide_eq_false_iff_not]
    change x.toBits.toNat / 2 ^ 63 % 2 = 0 ↔ ¬ 2 ^ 63 ≤ x.toBits.toNat
    omega
  rw [UnpackedFloat.Sign.ofBitVec, signOf]
  cases hnegative : isNegative x with
  | false => exact if_pos (hbit.2 hnegative)
  | true => exact if_neg fun hzero => Bool.false_ne_true ((hbit.1 hzero).symm.trans hnegative)

theorem toModel_unpack (x : Float) :
    x.toModel.unpack = UnpackedFloat.unpack .binary64 x.toModel.toBits.toBitVec := rfl

theorem beq_eq_compare (x y : Float) :
    (x == y) = (x.toModel.unpack.compare y.toModel.unpack == some .eq) := rfl

theorem unpack_zero : (0.0 : Float).toModel.unpack = .zero .positive := rfl

/-- All bits but the sign are zero only in the two zeros. -/
theorem magnitude_pos {x : Float} (h : (x == 0.0) = false) : 0 < magnitude x := by
  -- both fields of a number of magnitude zero are zero, and so it decodes to zero
  refine Nat.pos_of_ne_zero fun hzero => ?_
  have hexponent : @unpackExponent .binary64 x.toModel.toBits.toBitVec = 0#_ := by
    apply BitVec.eq_of_toNat_eq
    rw [toNat_unpackExponent_bits, hzero]
    rfl
  have hmantissa : @unpackMantissa .binary64 x.toModel.toBits.toBitVec = 0#_ := by
    apply BitVec.eq_of_toNat_eq
    rw [toNat_unpackMantissa_bits, hzero]
    rfl
  have hunpack : x.toModel.unpack = .zero (signOf (isNegative x)) := by
    rw [toModel_unpack]
    delta UnpackedFloat.unpack
    dsimp only
    rw [if_neg (by rw [hexponent]; decide), if_pos hexponent, dif_pos hmantissa,
      ofBitVec_unpackSign_bits]
  rw [beq_eq_compare, hunpack, unpack_zero] at h
  cases h

/-- The highest exponent belongs to the infinities and what is not a number. -/
theorem magnitude_lt {x : Float} (h : x.isFinite = true) : magnitude x < 2047 * 2 ^ 52 := by
  have hlt : magnitude x < 2 ^ 63 := Nat.mod_lt _ (by decide)
  -- a larger magnitude has the exponent field of infinity and of what is no number
  by_contra hge
  have hexponent : @unpackExponent .binary64 x.toModel.toBits.toBitVec = -1#_ := by
    apply BitVec.eq_of_toNat_eq
    rw [toNat_unpackExponent_bits]
    change magnitude x / 2 ^ 52 = 2047
    omega
  have hfinite : x.toModel.unpack.isFinite = true := h
  rw [toModel_unpack] at hfinite
  delta UnpackedFloat.unpack at hfinite
  dsimp only at hfinite
  rw [if_pos hexponent] at hfinite
  split at hfinite
  · cases hfinite
  · cases hfinite

/-- What is finite and not zero is a double. -/
theorem isDouble_parts {x : Float} (hfinite : x.isFinite = true) (hne : (x == 0.0) = false) :
    (parts x).IsDouble :=
  isDouble_ofBits (magnitude_pos hne) (magnitude_lt hfinite)

/-- **The parts that a number is written with are the parts of the number.** -/
theorem unpack_toModel {x : Float} (hfinite : x.isFinite = true) (hne : (x == 0.0) = false) :
    x.toModel.unpack = (isDouble_parts hfinite hne).unpacked (signOf (isNegative x)) := by
  -- both ways to take a number apart distinguish by the exponent field
  have hparts : parts x = if magnitude x / 2 ^ 52 = 0 then
      (⟨magnitude x % 2 ^ 52, -1074, false⟩ : Binary)
    else ⟨2 ^ 52 + magnitude x % 2 ^ 52, (magnitude x / 2 ^ 52 : Nat) - 1075,
      magnitude x % 2 ^ 52 = 0 && 1 < magnitude x / 2 ^ 52⟩ := rfl
  by_cases hzero : magnitude x / 2 ^ 52 = 0
  · rw [if_pos hzero] at hparts
    refine unpack_subnormal _ (ofBitVec_unpackSign_bits x) ?_ ?_ ?_
    · rw [toNat_unpackExponent_bits, hzero]
    · rw [toNat_unpackMantissa_bits, hparts]
    · rw [hparts]
  · rw [if_neg hzero] at hparts
    refine unpack_normal _ (ofBitVec_unpackSign_bits x) ?_ ?_ ?_ ?_
    · rw [toNat_unpackExponent_bits]
      exact Nat.pos_of_ne_zero hzero
    · rw [toNat_unpackExponent_bits]
      exact (Nat.div_lt_iff_lt_mul (by decide)).2 (magnitude_lt hfinite)
    · rw [toNat_unpackMantissa_bits, hparts]
    · rw [toNat_unpackExponent_bits, hparts]

/-- Numbers with the same parts are equal. -/
theorem beq_of_unpack {x y : Float} {hb : b.IsDouble} (hx : x.toModel.unpack = hb.unpacked sign)
    (hy : y.toModel.unpack = hb.unpacked sign) : (y == x) = true := by
  rw [beq_eq_compare, hx, hy, Binary.IsDouble.unpacked]
  -- of two negative numbers the comparison is the other way round, which makes no difference here
  cases sign with
  | positive =>
    change (some ((compare b.exponent b.exponent).then (compare b.mantissa b.mantissa))
      == some .eq) = true
    simp
  | negative =>
    change (some ((compare b.exponent b.exponent).then (compare b.mantissa b.mantissa)).swap
      == some .eq) = true
    simp

end SmallLisp.Number
