import SmallLisp.Proofs.Number.Positional

/-!
# Equality of numbers

Two numbers are equal if both are zeros, of either sign, or if they are the same number and it is
one (`beq_iff`). So equality of numbers is symmetric and transitive, and equal numbers have one text
(`spell_eq_of_beq`): zero is written without its sign.
-/

namespace SmallLisp.Number

open Float.Model Float.Model.UnpackedFloat
open Decimal (Binary)

variable {x y z : Float}

/-! ### What equality compares -/

/-- What is a zero of either sign. -/
def IsZero (u : UnpackedFloat) : Prop :=
  ∃ sign, u = .zero sign

theorem compare_sign_eq_iff {s t : UnpackedFloat.Sign} : compare s t = .eq ↔ s = t := by
  cases s <;> cases t <;> simp [compare]

/-- Exponents and mantissas decide: doubles have them in one form. -/
theorem compare_finite_eq_iff {e e' : Int} {m m' : Nat} :
    (compare e e').then (compare m m') = .eq ↔ e = e' ∧ m = m' := by
  rw [Ordering.then_eq_eq, compare_eq_iff_eq, compare_eq_iff_eq]

/-- Only two of one kind compare as equal, and only zeros of two signs. -/
theorem of_compare_eq {u v : UnpackedFloat} (h : u.compare v = some .eq) :
    IsZero u ∧ IsZero v ∨ u = v ∧ u.isNaN = false := by
  cases u with
  | notANumber => cases h
  | infinity s =>
    cases v with
    | infinity t =>
      obtain rfl : s = t := compare_sign_eq_iff.1 (Option.some.inj h)
      exact .inr ⟨rfl, rfl⟩
    | notANumber => cases h
    | _ => cases s <;> cases h
  -- the two zeros are equal to one another and to nothing else
  | zero s =>
    cases v with
    | zero t => exact .inl ⟨⟨s, rfl⟩, t, rfl⟩
    | infinity t | finite t => cases t <;> cases h
    | notANumber => cases h
  | finite s m e hm =>
    cases v with
    | finite t m' e' hm' =>
      cases s <;> cases t
      case positive.negative | negative.positive => cases h
      case positive.positive =>
        obtain ⟨rfl, rfl⟩ := compare_finite_eq_iff.1 (Option.some.inj h)
        exact .inr ⟨rfl, rfl⟩
      case negative.negative =>
        -- of negative numbers the order is the other way round
        obtain ⟨rfl, rfl⟩ := compare_finite_eq_iff.1 (Ordering.swap_eq_eq.1 (Option.some.inj h))
        exact .inr ⟨rfl, rfl⟩
    | infinity t => cases t <;> cases h
    | zero t => cases s <;> cases h
    | notANumber => cases h

theorem compare_eq_iff {u v : UnpackedFloat} :
    u.compare v = some .eq ↔ IsZero u ∧ IsZero v ∨ u = v ∧ u.isNaN = false := by
  refine ⟨of_compare_eq, ?_⟩
  rintro (⟨⟨s, rfl⟩, t, rfl⟩ | ⟨rfl, hnan⟩)
  · rfl
  · cases u with
    | notANumber => cases hnan
    | infinity s => exact congrArg some (compare_sign_eq_iff.2 rfl)
    | zero s => rfl
    | finite s m e hm =>
      -- the same mantissa and exponent compare as equal, with either sign
      have hsame := compare_finite_eq_iff.2 ⟨Eq.refl e, Eq.refl m⟩
      cases s with
      | positive => exact congrArg some hsame
      | negative => exact congrArg some (Ordering.swap_eq_eq.2 hsame)

/-- **Numbers are equal if both are zeros, or if they are the same number.** -/
theorem beq_iff : (x == y) = true ↔ IsZero x.toModel.unpack ∧ IsZero y.toModel.unpack ∨
    x.toModel.unpack = y.toModel.unpack ∧ x.isNaN = false := by
  rw [beq_eq_compare, beq_iff_eq, compare_eq_iff]
  rfl

theorem beq_zero_iff : (x == 0.0) = true ↔ IsZero x.toModel.unpack := by
  rw [beq_iff, unpack_zero]
  constructor
  · rintro (⟨hx, -⟩ | ⟨hx, -⟩)
    · exact hx
    · exact ⟨_, hx⟩
  · exact fun hx => .inl ⟨hx, _, rfl⟩

theorem beq_symm (h : (x == y) = true) : (y == x) = true := by
  rw [beq_iff] at h ⊢
  rcases h with ⟨hx, hy⟩ | ⟨hunpack, hnan⟩
  · exact .inl ⟨hy, hx⟩
  · have hnan' : y.toModel.unpack.isNaN = false := hunpack ▸ hnan
    exact .inr ⟨hunpack.symm, hnan'⟩

theorem beq_trans (hxy : (x == y) = true) (hyz : (y == z) = true) : (x == z) = true := by
  rw [beq_iff] at hxy hyz ⊢
  rcases hxy with ⟨hx, hy⟩ | ⟨hxy, hnan⟩ <;> rcases hyz with ⟨hy', hz⟩ | ⟨hyz, -⟩
  · exact .inl ⟨hx, hz⟩
  · exact .inl ⟨hx, hyz ▸ hy⟩
  · exact .inl ⟨hxy ▸ hy', hz⟩
  · exact .inr ⟨hxy.trans hyz, hnan⟩

/-! ### Texts of equal numbers -/

theorem isNaN_of_isZero (h : IsZero x.toModel.unpack) : x.isNaN = false := by
  obtain ⟨sign, hunpack⟩ := h
  exact congrArg UnpackedFloat.isNaN hunpack

/-- Zero is written without its sign. -/
theorem spell_of_isZero (h : IsZero x.toModel.unpack) : spell x = ['0'] := by
  rw [spell, isNaN_of_isZero h, if_neg Bool.false_ne_true, if_pos (beq_zero_iff.2 h)]

theorem signOf_injective : Function.Injective signOf := by
  intro p q h
  cases p <;> cases q <;> first | rfl | cases h

/-- The sign of an infinity is its sign bit. -/
theorem sign_of_unpack_infinity {sign : UnpackedFloat.Sign}
    (h : x.toModel.unpack = .infinity sign) : sign = signOf (isNegative x) := by
  rw [toModel_unpack] at h
  delta UnpackedFloat.unpack at h
  dsimp only at h
  -- an infinity has all bits of the exponent set and none of the mantissa
  by_cases hones : @unpackExponent .binary64 x.toModel.toBits.toBitVec = -1#_
  · rw [if_pos hones] at h
    by_cases hmantissa : @unpackMantissa .binary64 x.toModel.toBits.toBitVec = 0#_
    · rw [if_pos hmantissa] at h
      rw [← ofBitVec_unpackSign_bits]
      exact (UnpackedFloat.infinity.inj h).symm
    · rw [if_neg hmantissa] at h
      cases h
  · rw [if_neg hones] at h
    by_cases hzero : @unpackExponent .binary64 x.toModel.toBits.toBitVec = 0#_
    · rw [if_pos hzero] at h
      by_cases hmantissa : @unpackMantissa .binary64 x.toModel.toBits.toBitVec = 0#_
      · rw [dif_pos hmantissa] at h
        cases h
      · rw [dif_neg hmantissa] at h
        cases h
    · rw [if_neg hzero] at h
      cases h

/-- **A double is no more than its mantissa and its exponent.** -/
theorem eq_of_isDouble {b c : Binary} (hb : b.IsDouble) (hc : c.IsDouble)
    (hmantissa : b.mantissa = c.mantissa) (hexponent : b.exponent = c.exponent) : b = c := by
  have hboundary : b.boundary = c.boundary := by
    rw [Bool.eq_iff_iff, hb.boundary_iff, hc.boundary_iff, hmantissa, hexponent]
  obtain ⟨mantissa, exponent, boundary⟩ := b
  obtain ⟨mantissa', exponent', boundary'⟩ := c
  dsimp only at hmantissa hexponent hboundary
  rw [hmantissa, hexponent, hboundary]

theorem spell_eq_of_unpack_eq (h : x.toModel.unpack = y.toModel.unpack) : spell x = spell y := by
  have hnan : x.isNaN = y.isNaN := congrArg UnpackedFloat.isNaN h
  have hinf : x.isInf = y.isInf := congrArg UnpackedFloat.isInf h
  have hzero : (x == 0.0) = (y == 0.0) := by rw [beq_eq_compare, beq_eq_compare, h]
  -- what is written depends on the kind of the number, and for a finite one on its parts
  cases hx : x.toModel.unpack with
  | notANumber =>
    have hnan' : x.isNaN = true := congrArg UnpackedFloat.isNaN hx
    rw [spell, spell, ← hnan, if_pos hnan', if_pos hnan']
  | zero sign =>
    rw [spell_of_isZero ⟨sign, hx⟩, spell_of_isZero ⟨sign, h.symm.trans hx⟩]
  | infinity sign =>
    have hnan' : x.isNaN = false := congrArg UnpackedFloat.isNaN hx
    have hinf' : x.isInf = true := congrArg UnpackedFloat.isInf hx
    have hzero' : (x == 0.0) = false := by
      rw [Bool.eq_false_iff, Ne, beq_zero_iff, hx]
      rintro ⟨_, hkind⟩
      cases hkind
    have hsign : isNegative x = isNegative y := signOf_injective
      ((sign_of_unpack_infinity hx).symm.trans (sign_of_unpack_infinity (h.symm.trans hx)))
    rw [spell_of_ne_zero hnan' hzero', spell_of_ne_zero (hnan ▸ hnan') (hzero ▸ hzero'), hsign,
      ← hinf, hinf', if_pos rfl, if_pos rfl]
  | finite sign mantissa exponent hpos =>
    have hfinite : x.isFinite = true := congrArg UnpackedFloat.isFinite hx
    have hfinite' : y.isFinite = true := congrArg UnpackedFloat.isFinite (h.symm.trans hx)
    have hzero' : (x == 0.0) = false := by
      rw [Bool.eq_false_iff, Ne, beq_zero_iff, hx]
      rintro ⟨_, hkind⟩
      cases hkind
    -- the same sign, mantissa and exponent, so the same digits
    have hunpack := (unpack_toModel hfinite hzero').symm.trans
      (h.trans (unpack_toModel hfinite' (hzero ▸ hzero')))
    obtain ⟨hsign, hmantissa, hexponent⟩ := UnpackedFloat.finite.inj hunpack
    rw [spell_of_isFinite hfinite hzero', spell_of_isFinite hfinite' (hzero ▸ hzero'),
      signOf_injective hsign, eq_of_isDouble (isDouble_parts hfinite hzero')
        (isDouble_parts hfinite' (hzero ▸ hzero')) hmantissa hexponent]

/-- **Equal numbers have one text.** -/
theorem spell_eq_of_beq (h : (x == y) = true) : spell x = spell y := by
  rcases beq_iff.1 h with ⟨hx, hy⟩ | ⟨hunpack, -⟩
  · rw [spell_of_isZero hx, spell_of_isZero hy]
  · exact spell_eq_of_unpack_eq hunpack

end SmallLisp.Number
