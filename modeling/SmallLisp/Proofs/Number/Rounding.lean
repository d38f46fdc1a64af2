import Mathlib.Algebra.Order.Field.Basic
import Mathlib.Algebra.Order.Field.Rat
import Mathlib.Algebra.Order.Field.Power
import Mathlib.Tactic.FieldSimp
import Mathlib.Tactic.Linarith
import Mathlib.Tactic.NormNum
import Mathlib.Tactic.Ring
import SmallLisp.Number.Shortest

/-!
# Rounding to doubles

The operations on doubles compute an exact result as a mantissa with residual bits and round it to
fifty-three binary digits. `Approximates` says which rational number a mantissa with residual bits
stands for; shifting keeps that, and at the target exponent the bits decide for the nearest mantissa
(`Approximates.roundedMantissa_eq`).

A positive double owns the interval of the rational numbers that round to it (`Binary.Owns`). The
rounding of any number of the interval is the double (`roundWithAccuracy_of_owns`), so a product or
a quotient is the double whose interval it lies in.
-/

namespace SmallLisp

open Float.Model Float.Model.UnpackedFloat

namespace Number

/-- A power with a whole exponent is a fraction of two powers, of which at least one is one. -/
theorem zpow_eq_div {x : ℚ} (hx : x ≠ 0) (k : Int) : x ^ k = x ^ k.toNat / x ^ (-k).toNat := by
  rw [eq_div_iff (pow_ne_zero _ hx), ← zpow_natCast, ← zpow_natCast, ← zpow_add₀ hx]
  congr 1
  omega

/-! ### Mantissas with residual bits -/

/-- The number is a mantissa, one half more if the round bit is set, and a rest below one half, of
which the sticky bit tells whether there is any. -/
def Approximates (em : ExtendedMantissa) (r : ℚ) : Prop :=
  ∃ rest : ℚ, r = em.mantissa + em.roundBit.toNat / 2 + rest ∧ 0 ≤ rest ∧ rest < 1 / 2 ∧
    (em.stickyBit = true ↔ rest ≠ 0)

variable {em : ExtendedMantissa} {r : ℚ}

theorem Approximates.le (h : Approximates em r) : (em.mantissa : ℚ) ≤ r := by
  obtain ⟨rest, rfl, hrest, -, -⟩ := h
  have hround : (0 : ℚ) ≤ em.roundBit.toNat := Nat.cast_nonneg _
  linarith

theorem Approximates.lt (h : Approximates em r) : r < em.mantissa + 1 := by
  obtain ⟨rest, rfl, -, hrest, -⟩ := h
  have hround : (em.roundBit.toNat : ℚ) ≤ 1 := by exact_mod_cast Bool.toNat_le _
  linarith

theorem approximates_exact (mantissa : Nat) :
    Approximates (.ofMantissaAndAccuracy mantissa .exact) mantissa := by
  refine ⟨0, ?_, le_rfl, by norm_num, ?_⟩
  · simp [ExtendedMantissa.ofMantissaAndAccuracy]
  · simp [ExtendedMantissa.ofMantissaAndAccuracy]

/-- Half the number has the lowest bit of the mantissa as its round bit; the round bit becomes a
part of the rest. -/
theorem Approximates.shiftRightOne (h : Approximates em r) :
    Approximates em.shiftRightOne (r / 2) := by
  obtain ⟨rest, rfl, hnonneg, hlt, hsticky⟩ := h
  have hdiv : ((em.mantissa % 2 : Nat) : ℚ) + 2 * (em.mantissa / 2 : Nat) = em.mantissa := by
    exact_mod_cast Nat.mod_add_div em.mantissa 2
  -- the bit that is shifted out is the new round bit
  have hbit : (em.mantissa % 2 != 0).toNat = em.mantissa % 2 := by
    rcases Nat.mod_two_eq_zero_or_one em.mantissa with hmod | hmod <;> rw [hmod] <;> rfl
  refine ⟨em.roundBit.toNat / 4 + rest / 2, ?_, ?_, ?_, ?_⟩
  · change _ = ((em.mantissa / 2 : Nat) : ℚ) + (em.mantissa % 2 != 0).toNat / 2 + _
    rw [hbit, ← hdiv]
    ring
  · exact add_nonneg (div_nonneg (Nat.cast_nonneg _) (by norm_num)) (by linarith)
  · have hround : (em.roundBit.toNat : ℚ) ≤ 1 := by exact_mod_cast Bool.toNat_le _
    linarith
  · change (em.roundBit || em.stickyBit) = true ↔ _
    -- the sticky bit remembers the old round bit and all that came before
    rw [Bool.or_eq_true, hsticky]
    cases em.roundBit with
    | false => simp
    | true =>
      have hpos : (0 : ℚ) < (true.toNat : ℚ) / 4 + rest / 2 := by
        have hone : ((true.toNat : Nat) : ℚ) = 1 := Nat.cast_one
        rw [hone]
        linarith
      exact ⟨fun _ => hpos.ne', fun _ => .inl rfl⟩

theorem shiftRight_zero (em : ExtendedMantissa) : em >>> 0 = em := rfl

theorem shiftRight_succ (em : ExtendedMantissa) (n : Nat) :
    em >>> (n + 1) = (em >>> n).shiftRightOne := rfl

theorem Approximates.shiftRight (h : Approximates em r) (n : Nat) :
    Approximates (em >>> n) (r / 2 ^ n) := by
  induction n with
  | zero =>
    rw [shiftRight_zero, pow_zero, div_one]
    exact h
  | succ n ih =>
    rw [shiftRight_succ, pow_succ, ← div_div]
    exact ih.shiftRightOne

theorem mantissa_shiftRight (em : ExtendedMantissa) (n : Nat) :
    (em >>> n).mantissa = em.mantissa / 2 ^ n := by
  induction n with
  | zero => rw [shiftRight_zero, pow_zero, Nat.div_one]
  | succ n ih =>
    rw [shiftRight_succ, ExtendedMantissa.shiftRightOne, ih, Nat.div_div_eq_div_mul, pow_succ]

theorem mantissa_ofMantissaAndAccuracy (mantissa : Nat) (accuracy : Accuracy) :
    (ExtendedMantissa.ofMantissaAndAccuracy mantissa accuracy).mantissa = mantissa := by
  cases accuracy with
  | exact => rfl
  | inexact ordering => cases ordering <;> rfl

theorem eq_of_cast_lt_add_one {m n : Nat} (hm : (m : ℚ) < n + 1) (hn : (n : ℚ) < m + 1) :
    m = n := by
  have hm' : m < n + 1 := by exact_mod_cast hm
  have hn' : n < m + 1 := by exact_mod_cast hn
  omega

/-- The nearest whole number, and of two that are equally near the even one. -/
structure IsNearestEven (m : Nat) (r : ℚ) : Prop where
  le : (m : ℚ) - 1 / 2 ≤ r
  ge : r ≤ m + 1 / 2
  strict : m % 2 = 1 → (m : ℚ) - 1 / 2 < r ∧ r < m + 1 / 2

/-- **Rounding goes to the nearest mantissa**, and to the even one of two that are equally near. -/
theorem Approximates.roundedMantissa_eq (h : Approximates em r) {m : Nat}
    (hm : IsNearestEven m r) : em.roundedMantissa = m := by
  obtain ⟨hle, hge, hstrict⟩ := hm
  obtain ⟨mantissa, round, sticky⟩ := em
  obtain ⟨rest, rfl, hnonneg, hlt, hsticky⟩ := h
  cases round with
  | false =>
    -- below the half the mantissa stays
    have hstays : mantissa = m := by
      simp only [Bool.toNat_false, Nat.cast_zero, zero_div, add_zero] at hle hge
      exact eq_of_cast_lt_add_one (by linarith) (by linarith)
    cases sticky with
    | false => exact hstays
    | true => exact hstays
  | true =>
    simp only [Bool.toNat_true, Nat.cast_one] at hle hge hstrict
    cases sticky with
    | true =>
      have hpos : 0 < rest := lt_of_le_of_ne hnonneg (hsticky.1 rfl).symm
      have hup : mantissa + 1 = m :=
        eq_of_cast_lt_add_one (by push_cast; linarith) (by push_cast; linarith)
      exact hup
    | false =>
      -- at the half the even one of both
      have hzero : rest = 0 := by
        by_contra hne
        exact Bool.false_ne_true (hsticky.2 hne)
      subst hzero
      change mantissa + mantissa % 2 = m
      have hlow : m < mantissa + 2 := by
        have hcast : (m : ℚ) < mantissa + 2 := by linarith
        exact_mod_cast hcast
      have hhigh : mantissa < m + 1 := by
        have hcast : (mantissa : ℚ) < m + 1 := by linarith
        exact_mod_cast hcast
      rcases Nat.mod_two_eq_zero_or_one m with hmod | hmod
      · omega
      · obtain ⟨hbelow, habove⟩ := hstrict hmod
        have hne : mantissa ≠ m := by
          rintro rfl
          linarith
        have hne' : mantissa + 1 ≠ m := by
          rintro rfl
          push_cast at hbelow
          linarith
        omega

end Number

/-! ### Doubles -/

namespace Decimal.Binary

/-- The parts of a positive finite double. -/
structure IsDouble (b : Binary) : Prop where
  pos : 0 < b.mantissa
  lt : b.mantissa < 2 ^ 53
  le_exponent : -1074 ≤ b.exponent
  exponent_le : b.exponent ≤ 971
  /-- Only the doubles with the lowest exponent have fewer digits. -/
  full : 2 ^ 52 ≤ b.mantissa ∨ b.exponent = -1074
  /-- Below the first double with an exponent the doubles are twice as close together, but for the
  lowest exponent. -/
  boundary_iff : b.boundary = true ↔ b.mantissa = 2 ^ 52 ∧ -1074 < b.exponent

/-- The double with a sign. -/
def IsDouble.unpacked {b : Binary} (h : b.IsDouble) (sign : UnpackedFloat.Sign) : UnpackedFloat :=
  .finite sign b.mantissa b.exponent h.pos

/-- How far below the mantissa the numbers reach that round to the double. -/
def reach (b : Binary) : ℚ :=
  if b.boundary then 1 / 4 else 1 / 2

/-- **The interval of a double**: the numbers, in units of its last place, that round to it. The
ends belong to it if the mantissa is even. -/
structure Owns (b : Binary) (r : ℚ) : Prop where
  le : b.mantissa - b.reach ≤ r
  ge : r ≤ b.mantissa + 1 / 2
  strict : b.mantissa % 2 = 1 → b.mantissa - b.reach < r ∧ r < b.mantissa + 1 / 2

end Decimal.Binary

namespace Number

open Decimal (Binary)

variable {b : Binary} {m : Nat} {e : Int} {accuracy : Accuracy} {r : ℚ}

theorem totalExponent_eq (m : Nat) (e : Int) : totalExponent m e = m.log2 + 1 + e := rfl

theorem targetExponent_eq (t : Int) : Format.binary64.targetExponent t = max (t - 53) (-1074) := rfl

/-- The mantissa fills its fifty-three digits, unless the exponent is the lowest. -/
theorem div_lt_of_target {t : Int} (ht : Format.binary64.targetExponent (totalExponent m e) = t)
    (he : e ≤ t) : m / 2 ^ (t - e).toNat < 2 ^ 53 := by
  rw [targetExponent_eq, totalExponent_eq] at ht
  rw [Nat.div_lt_iff_lt_mul (Nat.two_pow_pos _), ← Nat.pow_add]
  calc m < 2 ^ (m.log2 + 1) := Nat.lt_log2_self
    _ ≤ 2 ^ (53 + (t - e).toNat) := Nat.pow_le_pow_right (by decide) (by omega)

theorem le_div_of_target {t : Int} (ht : Format.binary64.targetExponent (totalExponent m e) = t)
    (he : e ≤ t) (hlow : -1074 < t) : 2 ^ 52 ≤ m / 2 ^ (t - e).toNat := by
  rw [targetExponent_eq, totalExponent_eq] at ht
  have hne : m ≠ 0 := by
    rintro rfl
    simp only [Nat.log2_zero] at ht
    omega
  rw [Nat.le_div_iff_mul_le (Nat.two_pow_pos _), ← Nat.pow_add]
  calc 2 ^ (52 + (t - e).toNat) ≤ 2 ^ m.log2 := Nat.pow_le_pow_right (by decide) (by omega)
    _ ≤ m := Nat.log2_self_le hne

/-- The first shift brings the number to the target exponent. -/
theorem approximates_shiftToTarget {t : Int}
    (hr : Approximates (.ofMantissaAndAccuracy m accuracy) r)
    (ht : Format.binary64.targetExponent (totalExponent m e) = t) (he : e ≤ t) :
    ∃ em, shiftToTargetExponent .binary64 m e accuracy = (em, t) ∧
      em.mantissa = m / 2 ^ (t - e).toNat ∧ Approximates em (r / 2 ^ (t - e).toNat) := by
  refine ⟨ExtendedMantissa.ofMantissaAndAccuracy m accuracy >>> (t - e).toNat, ?_, ?_,
    hr.shiftRight _⟩
  · rw [shiftToTargetExponent, ht, shiftToExponent]
    exact Prod.ext rfl (by dsimp only; omega)
  · rw [mantissa_shiftRight, mantissa_ofMantissaAndAccuracy]

/-- The second shift only carries: a mantissa of fifty-three digits or fewer stays. -/
theorem shiftToTarget_exact {t : Int} (hm : m < 2 ^ 53) (ht : -1074 ≤ t) :
    ∃ em, shiftToTargetExponent .binary64 m t .exact = (em, t) ∧ em.mantissa = m := by
  have hlog : m.log2 ≤ 52 := by
    by_cases hzero : m = 0
    · rw [hzero, Nat.log2_zero]
      omega
    · have hlt := (Nat.log2_lt hzero).2 hm
      omega
  -- the mantissa fits, so nothing is shifted
  have hshift : (Format.binary64.targetExponent (totalExponent m t) - t).toNat = 0 := by
    rw [targetExponent_eq, totalExponent_eq]
    omega
  refine ⟨ExtendedMantissa.ofMantissaAndAccuracy m .exact, ?_, rfl⟩
  rw [shiftToTargetExponent, shiftToExponent, hshift]
  exact Prod.ext rfl (Int.add_zero t)

theorem shiftToTarget_carry {t : Int} (ht : -1074 ≤ t) :
    ∃ em, shiftToTargetExponent .binary64 (2 ^ 53) t .exact = (em, t + 1) ∧
      em.mantissa = 2 ^ 52 := by
  have hshift : (Format.binary64.targetExponent (totalExponent (2 ^ 53) t) - t).toNat = 1 := by
    rw [targetExponent_eq, totalExponent_eq, Nat.log2_two_pow]
    omega
  refine ⟨ExtendedMantissa.ofMantissaAndAccuracy (2 ^ 53) .exact >>> 1, ?_, ?_⟩
  · rw [shiftToTargetExponent, shiftToExponent, hshift]
    rfl
  · rw [mantissa_shiftRight]
    rfl

/-- The result of rounding, from its two shifts. -/
theorem roundWithAccuracy_eq_unpacked (hb : b.IsDouble) {sign : UnpackedFloat.Sign}
    {em em' : ExtendedMantissa}
    {t t' : Int} (hfirst : shiftToTargetExponent .binary64 m e accuracy = (em, t))
    (hsecond : shiftToTargetExponent .binary64 em.roundedMantissa t .exact = (em', t'))
    (hmantissa : em'.mantissa = b.mantissa) (hexponent : t' = b.exponent) :
    roundWithAccuracy .binary64 sign m e accuracy = hb.unpacked sign := by
  obtain ⟨mantissa, exponent, boundary⟩ := b
  dsimp only at hmantissa hexponent
  subst hmantissa hexponent
  -- rounding shifts twice: to the target, and once more where rounding up has carried
  rw [roundWithAccuracy, hfirst]
  dsimp only
  rw [hsecond]
  exact dif_neg hb.pos.ne'

theorem reach_le (b : Binary) : b.reach ≤ 1 / 2 := by
  rw [Binary.reach]
  split <;> norm_num

theorem reach_pos (b : Binary) : 0 < b.reach := by
  rw [Binary.reach]
  split <;> norm_num

theorem owns_mantissa (b : Binary) : b.Owns b.mantissa where
  le := sub_le_self _ (reach_pos b).le
  ge := le_add_of_nonneg_right (by norm_num)
  strict := fun _ => ⟨sub_lt_self _ (reach_pos b), lt_add_of_pos_right _ (by norm_num)⟩

theorem isNearestEven_of_owns (h : b.Owns r) : IsNearestEven b.mantissa r := by
  refine ⟨by linarith [h.le, reach_le b], h.ge, fun hodd => ?_⟩
  obtain ⟨hlow, hhigh⟩ := h.strict hodd
  exact ⟨by linarith [reach_le b], hhigh⟩

/-- Just above the number stands the first double of the next exponent, which the number rounds up
to. -/
theorem carries_of_owns (hb : b.IsDouble) {t : Int} {q : ℚ} (hexponent : b.exponent = t + 1)
    (htlow : -1074 ≤ t) (hlt : q < 2 ^ 53) (howns : b.Owns (q * 2 ^ (t - b.exponent))) :
    b.mantissa = 2 ^ 52 ∧ IsNearestEven (2 ^ 53) q := by
  -- one exponent above the target: half as many units
  have hhalf : q * 2 ^ (t - b.exponent) = q / 2 := by
    rw [show t - b.exponent = -1 by omega, zpow_neg_one, div_eq_mul_inv]
  rw [hhalf] at howns
  have hfull : 2 ^ 52 ≤ b.mantissa := by
    rcases hb.full with hfull | hlowest
    · exact hfull
    · omega
  have hle := (isNearestEven_of_owns howns).le
  -- fewer than 2^53 units of the target leave only the smallest mantissa one exponent above
  have hmantissa : b.mantissa = 2 ^ 52 := by
    have hcast : (b.mantissa : ℚ) < 2 ^ 52 + 1 := by linarith
    have hnat : b.mantissa < 2 ^ 52 + 1 := by exact_mod_cast hcast
    omega
  -- below it the doubles are twice as close together
  have hreach : b.reach = 1 / 4 := by
    rw [Binary.reach, if_pos (hb.boundary_iff.2 ⟨hmantissa, by omega⟩)]
  have hclose := howns.le
  rw [hreach, hmantissa] at hclose
  push_cast at hclose
  refine ⟨hmantissa, ?_, ?_, fun hodd => absurd hodd (by decide)⟩
  · push_cast
    linarith
  · push_cast
    linarith

/-- A number in the interval of a double, in the units of its target exponent: either that is the
exponent of the double, or the number rounds up to the first double of the next exponent. -/
theorem target_cases (hb : b.IsDouble) {t : Int} {q : ℚ} (htlow : -1074 ≤ t) (hnonneg : 0 ≤ q)
    (hlt : q < 2 ^ 53) (hge : -1074 < t → 2 ^ 52 ≤ q)
    (howns : b.Owns (q * 2 ^ (t - b.exponent))) :
    t = b.exponent ∧ IsNearestEven b.mantissa q ∨
      b.exponent = t + 1 ∧ b.mantissa = 2 ^ 52 ∧ IsNearestEven (2 ^ 53) q := by
  have hnear := isNearestEven_of_owns howns
  rcases lt_trichotomy t b.exponent with hless | hsame | hgreater
  · by_cases hnext : b.exponent = t + 1
    · exact .inr ⟨hnext, carries_of_owns hb hnext htlow hlt howns⟩
    · -- any larger double is too far away
      have hfull : 2 ^ 52 ≤ b.mantissa := by
        rcases hb.full with hfull | hlowest
        · exact hfull
        · omega
      have hpow : (2 : ℚ) ^ (t - b.exponent) ≤ 1 / 4 :=
        calc (2 : ℚ) ^ (t - b.exponent) ≤ 2 ^ (-2 : Int) :=
              zpow_le_zpow_right₀ (by norm_num) (by omega)
          _ = 1 / 4 := by norm_num
      have hsmall : q * 2 ^ (t - b.exponent) ≤ q * (1 / 4) :=
        mul_le_mul_of_nonneg_left hpow hnonneg
      have hfull' : (2 : ℚ) ^ 52 ≤ b.mantissa := by exact_mod_cast hfull
      linarith [hnear.le]
  · rw [hsame, sub_self, zpow_zero, mul_one] at hnear
    exact .inl ⟨hsame, hnear⟩
  · -- the double cannot have so many digits
    have hmantissa : (b.mantissa : ℚ) + 1 ≤ 2 ^ 53 := by exact_mod_cast hb.lt
    have hpow : (2 : ℚ) ≤ 2 ^ (t - b.exponent) :=
      calc (2 : ℚ) = 2 ^ (1 : Int) := (zpow_one 2).symm
        _ ≤ 2 ^ (t - b.exponent) := zpow_le_zpow_right₀ (by norm_num) (by omega)
    have hlarge : q * 2 ≤ q * 2 ^ (t - b.exponent) := mul_le_mul_of_nonneg_left hpow hnonneg
    have hq : (2 : ℚ) ^ 52 ≤ q := hge (lt_of_le_of_lt hb.le_exponent hgreater)
    linarith [hnear.ge]

/-- **Rounding finds the double whose interval the number lies in.** -/
theorem roundWithAccuracy_of_owns (hb : b.IsDouble) {sign : UnpackedFloat.Sign}
    (hr : Approximates (.ofMantissaAndAccuracy m accuracy) r)
    (he : e ≤ Format.binary64.targetExponent (totalExponent m e))
    (howns : b.Owns (r * 2 ^ (e - b.exponent))) :
    roundWithAccuracy .binary64 sign m e accuracy = hb.unpacked sign := by
  obtain ⟨t, ht⟩ : ∃ t, Format.binary64.targetExponent (totalExponent m e) = t := ⟨_, rfl⟩
  rw [ht] at he
  have htlow : -1074 ≤ t := by
    rw [← ht, targetExponent_eq]
    exact le_max_right _ _
  obtain ⟨em, hfirst, hmantissa, happrox⟩ := approximates_shiftToTarget hr ht he
  -- the number in units of the target
  have hunits : r * 2 ^ (e - b.exponent)
      = r / 2 ^ (t - e).toNat * 2 ^ (t - b.exponent) := by
    have hsplit : (2 : ℚ) ^ (t - b.exponent) = 2 ^ (t - e).toNat * 2 ^ (e - b.exponent) := by
      rw [← zpow_natCast, ← zpow_add₀ (by norm_num), Int.toNat_of_nonneg (by omega)]
      congr 1
      omega
    rw [hsplit, ← mul_assoc, div_mul_cancel₀ _ (pow_ne_zero _ two_ne_zero)]
  rw [hunits] at howns
  have hnonneg : 0 ≤ r / 2 ^ (t - e).toNat := le_trans (Nat.cast_nonneg _) happrox.le
  have hbelow : r / 2 ^ (t - e).toNat < 2 ^ 53 := by
    have hmantissa : em.mantissa + 1 ≤ 2 ^ 53 := hmantissa ▸ div_lt_of_target ht he
    have hcast : (em.mantissa : ℚ) + 1 ≤ 2 ^ 53 := by exact_mod_cast hmantissa
    linarith [happrox.lt]
  have habove : -1074 < t → (2 : ℚ) ^ 52 ≤ r / 2 ^ (t - e).toNat := by
    intro hlow
    have hmantissa : 2 ^ 52 ≤ em.mantissa := hmantissa ▸ le_div_of_target ht he hlow
    have hcast : (2 : ℚ) ^ 52 ≤ em.mantissa := by exact_mod_cast hmantissa
    exact hcast.trans happrox.le
  -- the double has the exponent of the target, or rounding carries into the one above
  rcases target_cases hb htlow hnonneg hbelow habove howns with
    ⟨rfl, hnear⟩ | ⟨hnext, hsmallest, hnear⟩
  · have hrounded := happrox.roundedMantissa_eq hnear
    obtain ⟨em', hsecond, hmantissa'⟩ := shiftToTarget_exact hb.lt htlow
    exact roundWithAccuracy_eq_unpacked hb hfirst (hrounded ▸ hsecond) hmantissa' rfl
  · have hrounded := happrox.roundedMantissa_eq hnear
    obtain ⟨em', hsecond, hmantissa'⟩ := shiftToTarget_carry htlow
    exact roundWithAccuracy_eq_unpacked hb hfirst (hrounded ▸ hsecond)
      (hmantissa'.trans hsmallest.symm) hnext.symm

/-! ### Products and quotients -/

/-- The accuracy of a whole quotient tells where the fraction lies between it and the next. -/
theorem approximates_fraction (n : Nat) {d : Nat} (hd : 0 < d) :
    Approximates (.ofMantissaAndAccuracy (n / d) (accuracyOfFraction (n % d) d)) (n / d) := by
  have hd' : (0 : ℚ) < d := Nat.cast_pos.2 hd
  have hsplit : (n : ℚ) / d = (n / d : Nat) + (n % d : Nat) / d := by
    rw [div_eq_iff hd'.ne', add_mul, div_mul_cancel₀ _ hd'.ne']
    exact_mod_cast (Nat.div_add_mod' n d).symm
  have hnonneg : (0 : ℚ) ≤ (n % d : Nat) / d := div_nonneg (Nat.cast_nonneg _) hd'.le
  have hlt : ((n % d : Nat) : ℚ) / d < 1 := by
    rw [div_lt_one hd']
    exact_mod_cast Nat.mod_lt n hd
  rw [accuracyOfFraction, hsplit]
  generalize n / d = q
  split
  · next hzero =>
    rw [hzero, Nat.cast_zero, zero_div, add_zero]
    exact approximates_exact q
  · next hne =>
    have hpos : (0 : ℚ) < (n % d : Nat) / d :=
      div_pos (Nat.cast_pos.2 (Nat.pos_of_ne_zero hne)) hd'
    -- below the half, at it or above it: the round bit and the sticky bit tell these apart
    cases hcompare : compare (2 * (n % d)) d with
    | lt =>
      have hhalf : ((n % d : Nat) : ℚ) / d < 1 / 2 := by
        have hcast : (2 : ℚ) * (n % d : Nat) < d := by exact_mod_cast compare_lt_iff_lt.1 hcompare
        rw [div_lt_iff₀ hd']
        linarith
      refine ⟨(n % d : Nat) / d, ?_, hnonneg, hhalf, fun _ => hpos.ne', fun _ => rfl⟩
      simp [ExtendedMantissa.ofMantissaAndAccuracy]
    | eq =>
      have hhalf : ((n % d : Nat) : ℚ) / d = 1 / 2 := by
        have hcast : (2 : ℚ) * (n % d : Nat) = d := by exact_mod_cast compare_eq_iff_eq.1 hcompare
        rw [div_eq_iff hd'.ne']
        linarith
      refine ⟨0, ?_, le_rfl, by norm_num, ?_⟩
      · rw [hhalf]
        simp [ExtendedMantissa.ofMantissaAndAccuracy]
      · simp [ExtendedMantissa.ofMantissaAndAccuracy]
    | gt =>
      have hhalf : 1 / 2 < ((n % d : Nat) : ℚ) / d := by
        have hcast : (d : ℚ) < 2 * (n % d : Nat) := by exact_mod_cast compare_gt_iff_gt.1 hcompare
        rw [lt_div_iff₀ hd']
        linarith
      refine ⟨(n % d : Nat) / d - 1 / 2, ?_, by linarith, by linarith,
        fun _ => (sub_pos.2 hhalf).ne', fun _ => rfl⟩
      simp [ExtendedMantissa.ofMantissaAndAccuracy]

variable {m₁ m₂ : Nat} {e₁ e₂ : Int}

/-- The quotient is taken of a dividend that is shifted far enough for fifty-three digits. -/
theorem le_target_of_div {k : Nat} {t : Int} (h₁ : 0 < m₁) (h₂ : 0 < m₂)
    (ht : t ≤ max (m₁.log2 + e₁ - (m₂.log2 + e₂) - 53) (-1074)) (hk : e₁ - e₂ - t = k) :
    t ≤ Format.binary64.targetExponent (totalExponent (m₁ * 2 ^ k / m₂) t) := by
  rw [targetExponent_eq, totalExponent_eq]
  by_cases hlow : t ≤ -1074
  · exact hlow.trans (le_max_right _ _)
  · have hshift : m₂.log2 + 1 + 52 ≤ m₁.log2 + k := by omega
    have hdigits : 2 ^ 52 ≤ m₁ * 2 ^ k / m₂ := by
      rw [Nat.le_div_iff_mul_le h₂]
      calc 2 ^ 52 * m₂ ≤ 2 ^ 52 * 2 ^ (m₂.log2 + 1) :=
            Nat.mul_le_mul_left _ Nat.lt_log2_self.le
        _ = 2 ^ (m₂.log2 + 1 + 52) := by rw [Nat.mul_comm, ← Nat.pow_add]
        _ ≤ 2 ^ (m₁.log2 + k) := Nat.pow_le_pow_right (by decide) hshift
        _ = 2 ^ m₁.log2 * 2 ^ k := Nat.pow_add 2 _ _
        _ ≤ m₁ * 2 ^ k := Nat.mul_le_mul_right _ (Nat.log2_self_le h₁.ne')
    have hne : m₁ * 2 ^ k / m₂ ≠ 0 := by
      rintro hzero
      rw [hzero] at hdigits
      exact absurd hdigits (by decide)
    have hlog := (Nat.le_log2 hne).2 hdigits
    omega

/-- **The quotient of two numbers is rounded to the double whose interval it lies in.** -/
theorem div_of_owns (hb : b.IsDouble) {s₁ s₂ : UnpackedFloat.Sign} (h₁ : 0 < m₁) (h₂ : 0 < m₂)
    (howns : b.Owns (m₁ * 2 ^ e₁ / (m₂ * 2 ^ e₂) / 2 ^ b.exponent)) :
    UnpackedFloat.div .binary64 (.finite s₁ m₁ e₁ h₁) (.finite s₂ m₂ e₂ h₂)
      = hb.unpacked (s₁ / s₂) := by
  obtain ⟨t, ht⟩ : ∃ t, min (e₁ - e₂)
      (Format.binary64.targetExponent (totalExponent m₁ e₁ - totalExponent m₂ e₂)) = t := ⟨_, rfl⟩
  obtain ⟨k, hk⟩ : ∃ k : Nat, e₁ - e₂ - t = k := Int.eq_ofNat_of_zero_le (by omega)
  have hcore : divCore .binary64 m₁ e₁ m₂ e₂
      = (m₁ * 2 ^ k / m₂, t, accuracyOfFraction (m₁ * 2 ^ k % m₂) m₂) := by
    rw [divCore, ht, hk, Int.toNat_natCast, Nat.shiftLeft_eq]
  change (let (m, e, acc) := divCore .binary64 m₁ e₁ m₂ e₂
    roundWithAccuracy .binary64 (s₁ / s₂) m e acc) = _
  rw [hcore]
  refine roundWithAccuracy_of_owns hb (approximates_fraction _ h₂) ?_ ?_
  · refine le_target_of_div h₁ h₂ ?_ hk
    rw [targetExponent_eq, totalExponent_eq, totalExponent_eq] at ht
    omega
  · have hunits : ((m₁ * 2 ^ k : Nat) : ℚ) / m₂ * 2 ^ (t - b.exponent)
        = m₁ * 2 ^ e₁ / (m₂ * 2 ^ e₂) / 2 ^ b.exponent := by
      have hexponent : (2 : ℚ) ^ e₁ = 2 ^ k * 2 ^ t * 2 ^ e₂ := by
        rw [← zpow_natCast, ← zpow_add₀ two_ne_zero, ← zpow_add₀ two_ne_zero]
        congr 1
        omega
      have hpos : (2 : ℚ) ^ e₂ ≠ 0 := zpow_ne_zero _ two_ne_zero
      have hm₂ : (m₂ : ℚ) ≠ 0 := Nat.cast_ne_zero.2 h₂.ne'
      rw [hexponent, zpow_sub₀ two_ne_zero]
      push_cast
      field_simp
    rwa [hunits]

/-- **The product of two numbers is rounded to the double whose interval it lies in.** -/
theorem mul_of_owns (hb : b.IsDouble) {s₁ s₂ : UnpackedFloat.Sign} (h₁ : 0 < m₁) (h₂ : 0 < m₂)
    (hfull : 2 ^ 52 ≤ m₁ * m₂)
    (howns : b.Owns (m₁ * 2 ^ e₁ * (m₂ * 2 ^ e₂) / 2 ^ b.exponent)) :
    UnpackedFloat.mul .binary64 (.finite s₁ m₁ e₁ h₁) (.finite s₂ m₂ e₂ h₂)
      = hb.unpacked (s₁ * s₂) := by
  have hlog : 52 ≤ (m₁ * m₂).log2 := (Nat.le_log2 (Nat.mul_pos h₁ h₂).ne').2 hfull
  refine roundWithAccuracy_of_owns hb (approximates_exact (m₁ * m₂)) ?_ ?_
  · rw [targetExponent_eq, totalExponent_eq]
    omega
  · rw [zpow_sub₀ two_ne_zero, zpow_add₀ two_ne_zero]
    push_cast
    convert howns using 1
    ring

end Number

end SmallLisp
