import Mathlib.Data.Nat.Cast.Order.Field
import Mathlib.Tactic.Positivity
import SmallLisp.Proofs.Number.Rounding
import SmallLisp.Proofs.Number.Spelling

/-!
# The shortest decimal lies in the interval

The search for the shortest decimal of a double looks at both neighbours of the double on ever finer
decimal grids, and answers with one that lies in the interval. With seventeen digits the nearer
neighbour always does: it is at most half a step away, and the interval reaches further than that
(`admits_seventeen`). So there is an answer, and it rounds to the double (`owns_shortest`).
-/

namespace SmallLisp.Decimal

variable {i : Interval} {b : Binary} {d : Decimal}

/-- A decimal as a fraction of the whole numbers that it is compared by. -/
theorem toRat_eq_div (d : Decimal) :
    d.toRat = (d.coefficient * Nat.pow 10 d.exponent.toNat : Nat)
      / (Nat.pow 10 (-d.exponent).toNat : Nat) := by
  rw [toRat, Number.zpow_eq_div (by norm_num), mul_div_assoc', Nat.pow_eq, Nat.pow_eq]
  push_cast
  rfl

/-! ### Intervals -/

namespace Interval

/-- What an interval holds, as rational numbers. -/
structure Holds (i : Interval) (q : ℚ) : Prop where
  low_le : (i.low : ℚ) / i.denominator ≤ q
  le_high : q ≤ i.high / i.denominator
  strict : i.closed = false → (i.low : ℚ) / i.denominator < q ∧ q < i.high / i.denominator

theorem le_toRat_iff {n denominator : Nat} (h : 0 < denominator) :
    n * Nat.pow 10 (-d.exponent).toNat
        ≤ d.coefficient * Nat.pow 10 d.exponent.toNat * denominator
      ↔ (n : ℚ) / denominator ≤ d.toRat := by
  have hten : 0 < Nat.pow 10 (-d.exponent).toNat := Nat.pow_pos (by decide)
  rw [toRat_eq_div, div_le_div_iff₀ (Nat.cast_pos.2 h) (Nat.cast_pos.2 hten), ← Nat.cast_mul,
    ← Nat.cast_mul, Nat.cast_le]

theorem toRat_le_iff {n denominator : Nat} (h : 0 < denominator) :
    d.coefficient * Nat.pow 10 d.exponent.toNat * denominator
        ≤ n * Nat.pow 10 (-d.exponent).toNat
      ↔ d.toRat ≤ (n : ℚ) / denominator := by
  have hten : 0 < Nat.pow 10 (-d.exponent).toNat := Nat.pow_pos (by decide)
  rw [toRat_eq_div, div_le_div_iff₀ (Nat.cast_pos.2 hten) (Nat.cast_pos.2 h), ← Nat.cast_mul,
    ← Nat.cast_mul, Nat.cast_le]

theorem holds_iff (h : 0 < i.denominator) : i.holds d = true ↔ i.Holds d.toRat := by
  rw [holds]
  -- an interval with its ends, or without them
  split
  · next hclosed =>
    rw [Bool.and_eq_true, decide_eq_true_eq, decide_eq_true_eq, le_toRat_iff h, toRat_le_iff h]
    constructor
    · rintro ⟨hlow, hhigh⟩
      exact ⟨hlow, hhigh, fun hopen => nomatch hclosed.symm.trans hopen⟩
    · rintro ⟨hlow, hhigh, -⟩
      exact ⟨hlow, hhigh⟩
  · next hopen =>
    rw [Bool.and_eq_true, decide_eq_true_eq, decide_eq_true_eq,
      lt_iff_lt_of_le_iff_le (toRat_le_iff h), lt_iff_lt_of_le_iff_le (le_toRat_iff h)]
    constructor
    · rintro ⟨hlow, hhigh⟩
      exact ⟨hlow.le, hhigh.le, fun _ => ⟨hlow, hhigh⟩⟩
    · rintro ⟨-, -, hstrict⟩
      exact hstrict (eq_false_of_ne_true hopen)

/-- Half a step of a grid away from the value, on both sides, the numbers are still in the
interval. -/
structure Admits (i : Interval) (step : ℚ) : Prop where
  low_lt : (i.low : ℚ) / i.denominator < i.value / i.denominator - step / 2
  lt_high : i.value / i.denominator + step / 2 < (i.high : ℚ) / i.denominator

/-- The two neighbours of the value on a grid. -/
theorem neighbours (h : 0 < i.denominator) (exponent : Int) :
    ∃ below : Nat, below = i.value * Nat.pow 10 (-exponent).toNat
        / (i.denominator * Nat.pow 10 exponent.toNat) ∧
      toRat ⟨below, exponent⟩ ≤ i.value / i.denominator ∧
      (i.value : ℚ) / i.denominator < toRat ⟨below + 1, exponent⟩ := by
  have hdenominator : 0 < i.denominator * Nat.pow 10 exponent.toNat :=
    Nat.mul_pos h (Nat.pow_pos (by decide))
  refine ⟨_, rfl, ?_, ?_⟩
  · -- the division of whole numbers rounds down, and one more is too much
    rw [← toRat_le_iff h, Nat.mul_assoc, Nat.mul_comm (Nat.pow 10 exponent.toNat)]
    exact Nat.div_mul_le_self _ _
  · rw [← lt_iff_lt_of_le_iff_le (toRat_le_iff h), Nat.mul_assoc,
      Nat.mul_comm (Nat.pow 10 exponent.toNat), Nat.mul_comm (_ + 1)]
    exact Nat.lt_mul_div_succ _ hdenominator

/-- One of the neighbours of the value on a grid lies in the interval if it reaches half a step
on both sides. -/
theorem nearest?_ne_none (h : 0 < i.denominator) {exponent : Int}
    (hadmits : i.Admits (10 ^ exponent)) : i.nearest? exponent ≠ none := by
  obtain ⟨below, hbelow, hlower, hupper⟩ := neighbours h exponent
  -- the two neighbours are one step apart, and the value lies between them
  have hstep : toRat ⟨below + 1, exponent⟩ = toRat ⟨below, exponent⟩ + 10 ^ exponent := by
    rw [toRat, toRat]
    push_cast
    ring
  have hstep_pos : (0 : ℚ) < 10 ^ exponent := zpow_pos (by norm_num) _
  obtain ⟨hlow, hhigh⟩ := hadmits
  have hholds : i.holds ⟨below, exponent⟩ = true ∨ i.holds ⟨below + 1, exponent⟩ = true := by
    rw [holds_iff h, holds_iff h]
    -- the nearer neighbour is at most half a step away
    rcases le_total (i.value / i.denominator - toRat ⟨below, exponent⟩) (10 ^ exponent / 2)
      with hnear | hfar
    · left
      have hinside : (i.low : ℚ) / i.denominator < toRat ⟨below, exponent⟩ ∧
          toRat ⟨below, exponent⟩ < i.high / i.denominator := ⟨by linarith, by linarith⟩
      exact ⟨hinside.1.le, hinside.2.le, fun _ => hinside⟩
    · right
      have hinside : (i.low : ℚ) / i.denominator < toRat ⟨below + 1, exponent⟩ ∧
          toRat ⟨below + 1, exponent⟩ < i.high / i.denominator := ⟨by linarith, by linarith⟩
      exact ⟨hinside.1.le, hinside.2.le, fun _ => hinside⟩
  unfold nearest?
  dsimp only
  rw [← hbelow]
  -- the search takes one that lies inside, and of two the nearer one
  split
  · exact Option.some_ne_none _
  · exact Option.some_ne_none _
  · next hnot hnot' =>
    rw [hnot, hnot'] at hholds
    exact absurd hholds (by decide)
  · split
    · exact Option.some_ne_none _
    · exact Option.some_ne_none _

/-- What a grid answers with lies in the interval … -/
theorem holds_of_nearest? {exponent : Int} (h : i.nearest? exponent = some d) :
    i.holds d = true := by
  unfold nearest? at h
  dsimp only at h
  split at h
  · next hlower _ =>
    cases h
    exact hlower
  · next _ hupper =>
    cases h
    exact hupper
  · cases h
  · next hlower hupper =>
    split at h
    · cases h
      exact hlower
    · cases h
      exact hupper

/-- … and so does what the search answers with. -/
theorem holds_of_search {position : Int} {digits tries : Nat}
    (h : i.search position digits tries = some d) : i.holds d = true := by
  induction tries generalizing digits with
  | zero => cases h
  | succ tries ih =>
    rw [search] at h
    split at h
    · next hnearest =>
      cases h
      exact holds_of_nearest? hnearest
    · exact ih h

/-- The search finds something if one of its grids does. -/
theorem search_ne_none {position : Int} {k : Nat} {digits tries : Nat} (hk : k < tries)
    (h : i.nearest? (position - (digits + k : Nat)) ≠ none) :
    i.search position digits tries ≠ none := by
  induction tries generalizing digits k with
  | zero => exact absurd hk (Nat.not_lt_zero k)
  | succ tries ih =>
    rw [search]
    -- either an earlier number of digits is enough, or one try fewer is left
    split
    · exact Option.some_ne_none _
    · next hnone =>
      cases k with
      | zero => exact absurd hnone h
      | succ k =>
        refine ih (Nat.lt_of_succ_lt_succ hk) ?_
        rwa [Nat.add_right_comm]

/-! ### The position of the first digit -/

theorem lt_pow_digitCount (n : Nat) : n < 10 ^ digitCount n :=
  (Nat.length_toDigits_le_iff (by decide) Nat.length_toDigits_pos).1 le_rfl

theorem pow_digitCount_le {n : Nat} (h : 0 < n) : 10 ^ (digitCount n - 1) ≤ n := by
  by_contra hlt
  have hpos : 0 < digitCount n - 1 := by
    refine Nat.pos_of_ne_zero fun hzero => ?_
    rw [hzero] at hlt
    omega
  have hlength := (Nat.length_toDigits_le_iff (by decide) hpos).2 (Nat.lt_of_not_le hlt)
  change digitCount n ≤ digitCount n - 1 at hlength
  omega

/-- The first digit of the value stands at its position. -/
theorem ten_zpow_position_le (h : 0 < i.denominator) (hvalue : 0 < i.value) :
    (10 : ℚ) ^ (i.position - 1) ≤ i.value / i.denominator := by
  have hdenominator : (0 : ℚ) < i.denominator := Nat.cast_pos.2 h
  rw [position]
  split
  · next hle =>
    -- the value is at least one, and its whole part has as many digits
    have hwhole : 0 < i.value / i.denominator := Nat.div_pos hle h
    have hcount : ((digitCount (i.value / i.denominator) : Int) - 1)
        = (digitCount (i.value / i.denominator) - 1 : Nat) := by
      have hpos : 0 < digitCount (i.value / i.denominator) := Nat.length_toDigits_pos
      omega
    rw [hcount, zpow_natCast]
    calc (10 : ℚ) ^ (digitCount (i.value / i.denominator) - 1)
        ≤ (i.value / i.denominator : Nat) := by exact_mod_cast pow_digitCount_le hwhole
      _ ≤ i.value / i.denominator := Nat.cast_div_le
  · -- the value is below one, and the digits of its inverse count the zeros after the point
    have hceil : i.denominator ≤ i.value * ((i.denominator + i.value - 1) / i.value) := by
      have hlt := Nat.lt_mul_div_succ (i.denominator + i.value - 1) hvalue
      rw [Nat.mul_add, Nat.mul_one] at hlt
      omega
    have hcount : (i.denominator + i.value - 1) / i.value
        ≤ 10 ^ digitCount ((i.denominator + i.value - 1) / i.value - 1) := by
      have hlt := lt_pow_digitCount ((i.denominator + i.value - 1) / i.value - 1)
      omega
    generalize digitCount ((i.denominator + i.value - 1) / i.value - 1) = k at hcount
    have hscaled : (i.denominator : ℚ) ≤ i.value * 10 ^ k := by
      exact_mod_cast hceil.trans (Nat.mul_le_mul_left _ hcount)
    have hexponent : (1 - k - 1 : Int) = -k := by omega
    rw [hexponent, zpow_neg, zpow_natCast, inv_le_iff_one_le_mul₀ (by positivity),
      div_mul_eq_mul_div,
      one_le_div hdenominator]
    exact hscaled

end Interval

/-! ### The interval of a double -/

theorem toRat_dropZeros (d : Decimal) (fuel : Nat) : (d.dropZeros fuel).toRat = d.toRat := by
  induction fuel generalizing d with
  | zero => rfl
  | succ fuel ih =>
    rw [dropZeros]
    split
    · next hzero =>
      rw [ih, toRat, toRat]
      have hcoefficient : (d.coefficient : ℚ) = (d.coefficient / 10 : Nat) * 10 := by
        exact_mod_cast (Nat.div_mul_cancel (Nat.dvd_of_mod_eq_zero hzero)).symm
      rw [hcoefficient, mul_assoc, ← zpow_one_add₀ (by norm_num), add_comm]
    · rfl

/-- The whole numbers of the interval stand for the ends of what the double owns. -/
structure Interval.Spans (i : Interval) (b : Binary) : Prop where
  denominator_pos : 0 < i.denominator
  value_pos : 0 < i.value
  low_eq : (i.low : ℚ) / i.denominator = (b.mantissa - b.reach) * 2 ^ b.exponent
  value_eq : (i.value : ℚ) / i.denominator = b.mantissa * 2 ^ b.exponent
  high_eq : (i.high : ℚ) / i.denominator = (b.mantissa + 1 / 2) * 2 ^ b.exponent
  closed_iff : i.closed = true ↔ b.mantissa % 2 = 0

theorem spans_ofBinary (hb : b.IsDouble) : (Interval.ofBinary b).Spans b := by
  have hpos := hb.pos
  -- quarters of the last place
  have hquarters : ∀ n : Nat, ((n * Nat.pow 2 (b.exponent - 2).toNat : Nat) : ℚ)
      / (Nat.pow 2 (-(b.exponent - 2)).toNat : Nat) = n / 4 * 2 ^ b.exponent := by
    intro n
    have hscale : (2 : ℚ) ^ b.exponent = 2 ^ (2 : Int) * 2 ^ (b.exponent - 2) := by
      rw [← zpow_add₀ two_ne_zero, add_sub_cancel]
    rw [hscale, Number.zpow_eq_div two_ne_zero (b.exponent - 2), Nat.pow_eq, Nat.pow_eq]
    push_cast
    norm_num
    ring
  refine ⟨Nat.pow_pos (by decide), Nat.mul_pos (by omega) (Nat.pow_pos (by decide)), ?_, ?_, ?_,
    decide_eq_true_iff⟩
  · refine (hquarters _).trans ?_
    rw [Binary.reach]
    -- below a power of two the neighbour is only half as far away
    cases b.boundary with
    | true =>
      rw [if_pos rfl, if_pos rfl, Nat.cast_sub (by omega)]
      push_cast
      ring
    | false =>
      rw [if_neg Bool.false_ne_true, if_neg Bool.false_ne_true, Nat.cast_sub (by omega)]
      push_cast
      ring
  · refine (hquarters _).trans ?_
    push_cast
    ring
  · refine (hquarters _).trans ?_
    push_cast
    ring

theorem owns_of_holds (hspans : i.Spans b) (h : i.holds d = true) :
    b.Owns (d.toRat / 2 ^ b.exponent) := by
  have hunits : (0 : ℚ) < 2 ^ b.exponent := zpow_pos two_pos _
  obtain ⟨hlow, hhigh, hstrict⟩ := (Interval.holds_iff hspans.denominator_pos).1 h
  rw [hspans.low_eq] at hlow hstrict
  rw [hspans.high_eq] at hhigh hstrict
  refine ⟨(le_div_iff₀ hunits).2 hlow, (div_le_iff₀ hunits).2 hhigh, fun hodd => ?_⟩
  have hopen : i.closed = false := by
    rw [← Bool.not_eq_true, hspans.closed_iff, hodd]
    exact Nat.one_ne_zero
  exact ⟨(lt_div_iff₀ hunits).2 (hstrict hopen).1, (div_lt_iff₀ hunits).2 (hstrict hopen).2⟩

/-- Half of the seventeenth digit is less than what the interval reaches. -/
theorem mantissa_div_lt_reach (hb : b.IsDouble) : (b.mantissa : ℚ) / (2 * 10 ^ 16) < b.reach := by
  rw [Binary.reach]
  split
  · next hboundary =>
    rw [((hb.boundary_iff).1 hboundary).1]
    norm_num
  · have hlt : (b.mantissa : ℚ) < 2 ^ 53 := by exact_mod_cast hb.lt
    rw [div_lt_iff₀ (by norm_num)]
    linarith

/-- Seventeen digits suffice. -/
theorem admits_seventeen (hb : b.IsDouble) (hspans : i.Spans b) :
    i.Admits (10 ^ (i.position - 17)) := by
  have hunits : (0 : ℚ) < 2 ^ b.exponent := zpow_pos two_pos _
  have hposition := Interval.ten_zpow_position_le hspans.denominator_pos hspans.value_pos
  have hstep : (10 : ℚ) ^ (i.position - 17) = 10 ^ (i.position - 1) / 10 ^ 16 := by
    rw [eq_div_iff (by norm_num), ← zpow_natCast, ← zpow_add₀ (by norm_num)]
    congr 1
    push_cast
    ring
  rw [hspans.value_eq] at hposition
  -- seventeen digits are finer than the doubles themselves
  have hhalf : (10 : ℚ) ^ (i.position - 17) / 2 < b.reach * 2 ^ b.exponent :=
    calc (10 : ℚ) ^ (i.position - 17) / 2 ≤ b.mantissa / (2 * 10 ^ 16) * 2 ^ b.exponent := by
          rw [hstep]
          linarith
      _ < b.reach * 2 ^ b.exponent := mul_lt_mul_of_pos_right (mantissa_div_lt_reach hb) hunits
  have hreach : b.reach * 2 ^ b.exponent ≤ 1 / 2 * 2 ^ b.exponent :=
    mul_le_mul_of_nonneg_right (Number.reach_le b) hunits.le
  refine ⟨?_, ?_⟩
  · rw [hspans.low_eq, hspans.value_eq]
    linarith
  · rw [hspans.high_eq, hspans.value_eq]
    linarith

/-- **The shortest decimal of a double rounds to the double.** -/
theorem owns_shortest (hb : b.IsDouble) : b.Owns ((shortest b).toRat / 2 ^ b.exponent) := by
  have hspans := spans_ofBinary hb
  have hseventeen := Interval.nearest?_ne_none hspans.denominator_pos (admits_seventeen hb hspans)
  have hsearch : (Interval.ofBinary b).search (Interval.ofBinary b).position 1 17 ≠ none :=
    Interval.search_ne_none (Nat.lt_succ_self 16) hseventeen
  obtain ⟨d, hd⟩ := Option.ne_none_iff_exists'.1 hsearch
  rw [shortest, hd, toRat_dropZeros]
  exact owns_of_holds hspans (Interval.holds_of_search hd)

end SmallLisp.Decimal
