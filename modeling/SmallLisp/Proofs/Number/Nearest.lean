import SmallLisp.Proofs.Number.Packing
import SmallLisp.Proofs.Number.Spelling

/-!
# The number of a decimal

A decimal is read as the quotient or the product of a whole number and a power of ten. If both are
doubles, that is one operation on doubles, and otherwise one on exact numbers; either way the result
is rounded once (`unpack_ofScientific`). So the number is the double whose interval the decimal lies
in (`unpack_ofDecimal`).
-/

namespace SmallLisp.Number

open Float.Model Float.Model.UnpackedFloat
open Decimal (Binary)

variable {b : Binary} {m : Nat} {e : Int}

/-! ### The bounds of doubles -/

theorem one_le_mantissa (hb : b.IsDouble) : (1 : ℚ) ≤ b.mantissa := by
  exact_mod_cast hb.pos

/-- What rounds to a positive double is not too small … -/
theorem lt_of_owns (hb : b.IsDouble) {q : ℚ} (howns : b.Owns (q / 2 ^ b.exponent)) :
    (2 : ℚ) ^ (-1075 : Int) ≤ q := by
  have hunits : (0 : ℚ) < 2 ^ b.exponent := zpow_pos two_pos _
  have hhalf : 1 / 2 ≤ q / 2 ^ b.exponent := by
    linarith [howns.le, one_le_mantissa hb, reach_le b]
  calc (2 : ℚ) ^ (-1075 : Int) = 1 / 2 * 2 ^ (-1074 : Int) := by
        rw [one_div, ← zpow_neg_one, ← zpow_add₀ two_ne_zero]
        rfl
    _ ≤ 1 / 2 * 2 ^ b.exponent :=
        mul_le_mul_of_nonneg_left (zpow_le_zpow_right₀ one_le_two hb.le_exponent) (by norm_num)
    _ ≤ q := (le_div_iff₀ hunits).1 hhalf

/-- … and not too large. -/
theorem le_of_owns (hb : b.IsDouble) {q : ℚ} (howns : b.Owns (q / 2 ^ b.exponent)) :
    q ≤ (2 : ℚ) ^ (1024 : Int) := by
  have hunits : (0 : ℚ) < 2 ^ b.exponent := zpow_pos two_pos _
  -- even with the largest mantissa and exponent there is a bound
  have hmantissa : (b.mantissa : ℚ) + 1 ≤ 2 ^ (53 : Int) := by exact_mod_cast hb.lt
  have hmost : q / 2 ^ b.exponent ≤ 2 ^ (53 : Int) := by linarith [howns.ge]
  calc q ≤ 2 ^ (53 : Int) * 2 ^ b.exponent := (div_le_iff₀ hunits).1 hmost
    _ ≤ 2 ^ (53 : Int) * 2 ^ (971 : Int) :=
        mul_le_mul_of_nonneg_left (zpow_le_zpow_right₀ one_le_two hb.exponent_le)
          (zpow_nonneg two_pos.le _)
    _ = 2 ^ (1024 : Int) := by
        rw [← zpow_add₀ two_ne_zero]
        rfl

/-! ### Exact factors -/

theorem pos_of_owns (hb : b.IsDouble) (howns : b.Owns (m * 10 ^ e / 2 ^ b.exponent)) : 0 < m := by
  refine Nat.pos_of_ne_zero ?_
  rintro rfl
  have hle := lt_of_owns hb howns
  rw [Nat.cast_zero, zero_mul] at hle
  exact absurd hle (not_le.2 (zpow_pos two_pos _))

theorem exponent_le_of_owns (hb : b.IsDouble) (howns : b.Owns (m * 10 ^ e / 2 ^ b.exponent)) :
    e ≤ 2048 := by
  by_contra hlarge
  have hle := le_of_owns hb howns
  have hm : (1 : ℚ) ≤ m := by exact_mod_cast pos_of_owns hb howns
  -- a power of ten is at least that power of two, which would be more than the bound
  have hpow : (2 : ℚ) ^ (1025 : Int) ≤ 2 ^ (1024 : Int) :=
    calc (2 : ℚ) ^ (1025 : Int) ≤ 2 ^ e := zpow_le_zpow_right₀ one_le_two (by omega)
      _ ≤ 10 ^ e := zpow_le_zpow_left₀ (by omega) two_pos.le (by norm_num)
      _ ≤ m * 10 ^ e := le_mul_of_one_le_left (zpow_nonneg (by norm_num) _) hm
      _ ≤ 2 ^ (1024 : Int) := hle
  rw [zpow_le_zpow_iff_right₀ one_lt_two] at hpow
  omega

theorem le_exponent_of_owns (hb : b.IsDouble)
    (howns : b.Owns (m * 10 ^ e / 2 ^ b.exponent)) : -(2048 + m.log2 : Int) ≤ e := by
  by_contra hsmall
  have hle := lt_of_owns hb howns
  -- a bound on the decimal mantissa, against which so small an exponent leaves too little
  have hm' : (m : ℚ) ≤ 2 ^ (m.log2 + 1 : Int) := by
    exact_mod_cast (@Nat.lt_log2_self m).le
  have hpow : (2 : ℚ) ^ (-1075 : Int) ≤ 2 ^ (-1076 : Int) :=
    calc (2 : ℚ) ^ (-1075 : Int) ≤ m * 10 ^ e := hle
      _ ≤ 2 ^ (m.log2 + 1 : Int) * 2 ^ e := by
          refine mul_le_mul hm' ?_ (zpow_nonneg (by norm_num) _) (zpow_nonneg two_pos.le _)
          obtain ⟨k, rfl⟩ : ∃ k : Nat, e = -k := ⟨e.natAbs, by omega⟩
          rw [zpow_neg, zpow_neg, zpow_natCast, zpow_natCast]
          exact inv_anti₀ (pow_pos two_pos k) (pow_le_pow_left₀ two_pos.le (by norm_num) k)
      _ = 2 ^ (m.log2 + 1 + e : Int) := (zpow_add₀ two_ne_zero _ _).symm
      _ ≤ 2 ^ (-1076 : Int) := zpow_le_zpow_right₀ one_le_two (by omega)
  rw [zpow_le_zpow_iff_right₀ one_lt_two] at hpow
  omega

/-- The exact product or quotient is rounded once. The guards against huge powers of ten keep no
double away. -/
theorem ofScientific_of_owns (hb : b.IsDouble) (howns : b.Owns (m * 10 ^ e / 2 ^ b.exponent)) :
    UnpackedFloat.ofScientific .binary64 m e = hb.unpacked .positive := by
  have hm : 0 < m := pos_of_owns hb howns
  -- the two shortcuts, for exponents so large or so small that the result is known, are not taken
  have hhigh : ¬ e > 2 ^ Format.binary64.exponentBits :=
    not_lt.2 (exponent_le_of_owns hb howns)
  have hlow : ¬ e < -(2 ^ Format.binary64.exponentBits + m.log2) :=
    not_lt.2 (le_exponent_of_owns hb howns)
  have hten : ∀ k, 0 < 10 ^ k := fun k => Nat.pow_pos (by decide)
  rw [UnpackedFloat.ofScientific, dif_neg hm.ne', if_neg hhigh, if_neg hlow]
  by_cases hnonneg : 0 ≤ e
  · rw [if_pos hnonneg]
    obtain ⟨k, rfl⟩ := Int.eq_ofNat_of_zero_le hnonneg
    -- the decimal mantissa is shifted first, so that the product has bits enough
    have hfull : 2 ^ 52 ≤ m <<< 53 * 10 ^ k := by
      rw [Nat.shiftLeft_eq]
      calc 2 ^ 52 ≤ 1 * 2 ^ 53 * 1 := by decide
        _ ≤ m * 2 ^ 53 * 10 ^ k := Nat.mul_le_mul (Nat.mul_le_mul_right _ hm) (hten k)
    have hvalue : ((m <<< 53 : Nat) : ℚ) * 2 ^ (-53 : Int) * ((10 ^ k : Nat) * 2 ^ (0 : Int))
        = m * 10 ^ (k : Int) := by
      have hunits : ((2 : Nat) : ℚ) ^ 53 * 2 ^ (-53 : Int) = 1 := by norm_num
      rw [Nat.shiftLeft_eq, zpow_zero, mul_one, zpow_natCast, Nat.cast_mul, Nat.cast_pow,
        Nat.cast_pow, mul_assoc (m : ℚ), hunits, mul_one]
      rfl
    rw [← hvalue] at howns
    exact mul_of_owns hb _ (hten k) hfull howns
  · rw [if_neg hnonneg]
    -- with a negative exponent the power of ten divides
    have he : e = -((-e).toNat : Int) := by omega
    have hvalue : (m : ℚ) * 2 ^ (0 : Int) / ((10 ^ (-e).toNat : Nat) * 2 ^ (0 : Int))
        = m * 10 ^ e := by
      conv_rhs => rw [he]
      rw [zpow_zero, mul_one, mul_one, zpow_neg, zpow_natCast, div_eq_mul_inv, Nat.cast_pow]
      rfl
    rw [← hvalue] at howns
    exact div_of_owns hb hm (hten _) howns

/-! ### Factors that are doubles -/

/-- Whole numbers are shifted until they fill the mantissa, and there is nothing to round. -/
theorem ofNat_eq_unpacked {n k : Nat} {boundary : Bool} (hk : n.log2 + k = 52)
    (hc : (⟨n * 2 ^ k, -k, boundary⟩ : Binary).IsDouble) (hfull : 2 ^ 52 ≤ n * 2 ^ k) :
    UnpackedFloat.ofNat .binary64 n = hc.unpacked .positive := by
  have hpos : 0 < n := Nat.pos_of_mul_pos_right hc.pos
  have hcompare : compare (n : Int) 0 = .gt := compare_gt_iff_gt.2 (Int.natCast_pos.2 hpos)
  -- the number is shifted until it has all its bits
  have hshift : (0 - Format.binary64.targetExponent (totalExponent n 0)).toNat = k := by
    rw [targetExponent_eq, totalExponent_eq]
    omega
  rw [UnpackedFloat.ofNat, UnpackedFloat.ofInt, UnpackedFloat.normalize, hcompare]
  dsimp only
  rw [UnpackedFloat.round, Int.toNat_natCast]
  dsimp only
  rw [decreaseExponent, hshift, Nat.shiftLeft_eq]
  refine roundWithAccuracy_of_owns hc (approximates_exact _) ?_ ?_
  · have hlog := (Nat.le_log2 hc.pos.ne').2 hfull
    rw [targetExponent_eq, totalExponent_eq]
    dsimp only at hlog ⊢
    omega
  · dsimp only
    rw [zero_sub, sub_self, zpow_zero, mul_one]
    exact owns_mantissa ⟨n * 2 ^ k, -k, boundary⟩

/-- A whole number of fifty-three digits is a double. -/
theorem exists_unpack_whole {n : Nat} (hpos : 0 < n) (hlt : n < 2 ^ 53) :
    ∃ (c : Binary) (hc : c.IsDouble), n.toUInt64.toFloat.toModel.unpack = hc.unpacked .positive ∧
      (c.mantissa : ℚ) * 2 ^ c.exponent = n ∧ 2 ^ 52 ≤ c.mantissa := by
  have hlog : n.log2 < 53 := (Nat.log2_lt hpos.ne').2 hlt
  obtain ⟨k, hk⟩ : ∃ k : Nat, n.log2 + k = 52 := ⟨52 - n.log2, by omega⟩
  have hfull : 2 ^ 52 ≤ n * 2 ^ k := by
    rw [← hk, Nat.pow_add]
    exact Nat.mul_le_mul_right _ (Nat.log2_self_le hpos.ne')
  -- after the shift there are exactly 53 bits
  have hless : n * 2 ^ k < 2 ^ 53 := by
    have hsplit : 2 ^ 53 = 2 ^ (n.log2 + 1) * 2 ^ k := by
      rw [← Nat.pow_add]
      congr 1
      omega
    rw [hsplit]
    exact Nat.mul_lt_mul_of_pos_right Nat.lt_log2_self (Nat.two_pow_pos k)
  have hc : (⟨n * 2 ^ k, -k, n * 2 ^ k = 2 ^ 52⟩ : Binary).IsDouble :=
    ⟨Nat.mul_pos hpos (Nat.two_pow_pos k), hless, by dsimp only; omega, by dsimp only; omega,
      .inl hfull, by dsimp only; rw [decide_eq_true_eq]; omega⟩
  refine ⟨_, hc, ?_, ?_, hfull⟩
  · -- so small a number is not cut off as a machine word
    have hn : n.toUInt64.toNat = n := Nat.mod_eq_of_lt (by omega)
    change UnpackedFloat.unpack .binary64 (UnpackedFloat.pack .binary64
      (UnpackedFloat.ofNat .binary64 n.toUInt64.toNat)) = _
    rw [hn, ofNat_eq_unpacked hk hc hfull, unpack_pack_unpacked]
  · dsimp only
    rw [Nat.cast_mul, Nat.cast_pow, Nat.cast_ofNat, zpow_neg, zpow_natCast]
    exact mul_inv_cancel_right₀ (pow_ne_zero k two_ne_zero) _

/-- The double is exactly the whole number. -/
def IsExactly (x : Float) (n : Nat) : Prop :=
  (x == 0.0) = false ∧ x.isFinite = true ∧ isNegative x = false ∧
    (parts x).mantissa * 2 ^ (parts x).exponent.toNat = n * 2 ^ (-(parts x).exponent).toNat

instance (x : Float) (n : Nat) : Decidable (IsExactly x n) :=
  inferInstanceAs (Decidable (_ ∧ _))

/-- The powers of ten up to the twenty-second are doubles. -/
theorem isExactly_powersOfTen :
    ∀ k : Fin 23, IsExactly Float.exactlyRepresentablePowersOfTen[k] (10 ^ k.val) := by
  decide +kernel

theorem exists_unpack_powerOfTen {k : Nat} (hk : k < Float.exactlyRepresentablePowersOfTen.size) :
    ∃ (c : Binary) (hc : c.IsDouble),
      Float.exactlyRepresentablePowersOfTen[k].toModel.unpack = hc.unpacked .positive ∧
      (c.mantissa : ℚ) * 2 ^ c.exponent = 10 ^ k := by
  obtain ⟨hne, hfinite, hpositive, hvalue⟩ := isExactly_powersOfTen ⟨k, hk⟩
  have hunpack := unpack_toModel hfinite hne
  rw [hpositive] at hunpack
  refine ⟨_, _, hunpack, ?_⟩
  have hcast := congrArg (Nat.cast : Nat → ℚ) hvalue
  -- the table was checked in whole numbers
  push_cast at hcast
  rw [zpow_eq_div two_ne_zero, mul_div_assoc', hcast]
  exact mul_div_cancel_right₀ _ (pow_ne_zero _ two_ne_zero)

/-! ### One operation on doubles -/

theorem unpack_div {x y : Float} {c c' : Binary} {hc : c.IsDouble} {hc' : c'.IsDouble}
    (hx : x.toModel.unpack = hc.unpacked .positive)
    (hy : y.toModel.unpack = hc'.unpacked .positive) (hb : b.IsDouble)
    (howns : b.Owns (c.mantissa * 2 ^ c.exponent / (c'.mantissa * 2 ^ c'.exponent)
      / 2 ^ b.exponent)) :
    (x / y).toModel.unpack = hb.unpacked .positive := by
  change UnpackedFloat.unpack .binary64 (UnpackedFloat.pack .binary64
    (UnpackedFloat.div .binary64 x.toModel.unpack y.toModel.unpack)) = _
  rw [hx, hy]
  have hdiv := @div_of_owns b _ _ _ _ hb .positive .positive hc.pos hc'.pos howns
  -- packing and unpacking again changes nothing
  rw [← unpack_pack_unpacked hb .positive]
  exact congrArg (fun z => UnpackedFloat.unpack .binary64 (UnpackedFloat.pack .binary64 z)) hdiv

theorem unpack_mul {x y : Float} {c c' : Binary} {hc : c.IsDouble} {hc' : c'.IsDouble}
    (hx : x.toModel.unpack = hc.unpacked .positive)
    (hy : y.toModel.unpack = hc'.unpacked .positive) (hb : b.IsDouble)
    (hfull : 2 ^ 52 ≤ c.mantissa)
    (howns : b.Owns (c.mantissa * 2 ^ c.exponent * (c'.mantissa * 2 ^ c'.exponent)
      / 2 ^ b.exponent)) :
    (x * y).toModel.unpack = hb.unpacked .positive := by
  change UnpackedFloat.unpack .binary64 (UnpackedFloat.pack .binary64
    (UnpackedFloat.mul .binary64 x.toModel.unpack y.toModel.unpack)) = _
  rw [hx, hy]
  have hfull' : 2 ^ 52 ≤ c.mantissa * c'.mantissa := hfull.trans (Nat.le_mul_of_pos_right _ hc'.pos)
  have hmul := @mul_of_owns b _ _ _ _ hb .positive .positive hc.pos hc'.pos hfull' howns
  -- packing and unpacking again changes nothing
  rw [← unpack_pack_unpacked hb .positive]
  exact congrArg (fun z => UnpackedFloat.unpack .binary64 (UnpackedFloat.pack .binary64 z)) hmul

/-- **A decimal is rounded once**, whether or not both of its factors are doubles. -/
theorem unpack_ofScientific (hb : b.IsDouble) {s : Bool} {k : Nat}
    (howns : b.Owns (m * 10 ^ (if s then -k else k : Int) / 2 ^ b.exponent)) :
    (Float.ofScientific m s k).toModel.unpack = hb.unpacked .positive := by
  rw [Float.ofScientific]
  split
  · next hsmall =>
    -- both factors are doubles
    obtain ⟨hm, hk⟩ := hsmall
    obtain ⟨c, hc, hunpack, hvalue, hfull⟩ := exists_unpack_whole (pos_of_owns hb howns) hm
    obtain ⟨c', hc', hunpack', hvalue'⟩ := exists_unpack_powerOfTen (Nat.lt_succ_of_le hk)
    cases s with
    | true =>
      refine unpack_div hunpack hunpack' hb ?_
      rw [hvalue, hvalue', div_eq_mul_inv (m : ℚ), ← zpow_natCast, ← zpow_neg]
      exact howns
    | false =>
      refine unpack_mul hunpack hunpack' hb hfull ?_
      rw [hvalue, hvalue', ← zpow_natCast]
      exact howns
  · -- the factors are taken as they are
    have hexponent : (if s then Int.negOfNat k else Int.ofNat k) = if s then -(k : Int) else k := by
      cases s with
      | true => exact Int.negOfNat_eq
      | false => rfl
    dsimp only
    rw [hexponent]
    change UnpackedFloat.unpack .binary64 (UnpackedFloat.pack .binary64
      (UnpackedFloat.ofScientific .binary64 _ _)) = _
    rw [ofScientific_of_owns hb howns, unpack_pack_unpacked]

theorem unpack_neg {x : Float} (hb : b.IsDouble) (hx : x.toModel.unpack = hb.unpacked .positive) :
    (-x).toModel.unpack = hb.unpacked .negative := by
  change UnpackedFloat.unpack .binary64 (UnpackedFloat.pack .binary64 x.toModel.unpack.neg) = _
  rw [hx]
  exact unpack_pack_unpacked hb .negative

/-- **The number that a decimal denotes is the double whose interval it lies in.** -/
theorem unpack_ofDecimal (hb : b.IsDouble) {d : Decimal}
    (howns : b.Owns (d.toRat / 2 ^ b.exponent)) (negative : Bool) :
    (ofDecimal negative d).toModel.unpack = hb.unpacked (signOf negative) := by
  -- the sign is set afterwards
  have hmagnitude : (ofDecimal false d).toModel.unpack = hb.unpacked .positive := by
    obtain ⟨coefficient, exponent⟩ := d
    rw [ofDecimal, if_neg Bool.false_ne_true]
    dsimp only
    split
    · next hneg =>
      obtain ⟨k, rfl⟩ : ∃ k : Nat, exponent = -k := ⟨exponent.natAbs, by omega⟩
      rw [neg_neg, Int.toNat_natCast]
      exact unpack_ofScientific hb howns
    · next hnonneg =>
      obtain ⟨k, rfl⟩ := Int.eq_ofNat_of_zero_le (not_lt.1 hnonneg)
      exact unpack_ofScientific hb howns
  cases negative with
  | false => exact hmagnitude
  | true => exact unpack_neg hb hmagnitude

end SmallLisp.Number
