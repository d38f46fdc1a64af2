import Mathlib.Algebra.Order.Field.Rat
import Mathlib.Tactic.Ring
import SmallLisp.Proofs.Number.Numeral

/-!
# The text of a decimal

A decimal is written out in full if its point stands near its digits (`Decimal.IsPositional`): then
the text is a numeral, and it denotes the same rational number (`exists_unsigned_spellDecimal`).
Otherwise the text has an exponent, which no numeral has.
-/

namespace SmallLisp

namespace Decimal

/-- The rational number that a decimal denotes. -/
def toRat (d : Decimal) : ℚ :=
  d.coefficient * 10 ^ d.exponent

/-- How many digits stand before the point. -/
def place (d : Decimal) : Int :=
  (Nat.toDigits 10 d.coefficient).length + d.exponent

/-- The point stands near the digits. -/
def IsPositional (d : Decimal) : Prop :=
  -6 < d.place ∧ d.place ≤ 21

instance (d : Decimal) : Decidable d.IsPositional :=
  inferInstanceAs (Decidable (_ ∧ _))

end Decimal

namespace Number

/-! ### Digits -/

theorem isDigit_of_mem_toDigits {c : Char} {n : Nat} (h : c ∈ Nat.toDigits 10 n) :
    isDigit c = true := by
  have hdigit := Nat.isDigit_of_mem_toDigits (by decide) (by decide) h
  rw [Char.isDigit] at hdigit
  rwa [isDigit]

theorem isDigit_of_mem_zeros {c : Char} {count : Nat} (h : c ∈ zeros count) :
    isDigit c = true := by
  rw [List.eq_of_mem_replicate h]
  decide

theorem natOfDigits_toDigits (n : Nat) : natOfDigits (Nat.toDigits 10 n) = n :=
  Nat.ofDigitChars_ten_toDigits

theorem natOfDigits_append_zeros (digits : List Char) (count : Nat) :
    natOfDigits (digits ++ zeros count) = natOfDigits digits * 10 ^ count := by
  change Nat.ofDigitChars 10 (digits ++ List.replicate count '0') 0 = _
  rw [Nat.ofDigitChars_append, Nat.ofDigitChars_replicate_zero, Nat.mul_comm]
  rfl

theorem natOfDigits_zeros_append (count : Nat) (digits : List Char) :
    natOfDigits (zeros count ++ digits) = natOfDigits digits := by
  change Nat.ofDigitChars 10 (List.replicate count '0' ++ digits) 0 = _
  rw [Nat.ofDigitChars_append, Nat.ofDigitChars_replicate_zero, Nat.mul_zero]
  rfl

/-! ### Decimals written out -/

theorem toRat_mk_of_nonneg {n k : Nat} {exponent : Int} (h : exponent = k) :
    Decimal.toRat ⟨n * 10 ^ k, 0⟩ = Decimal.toRat ⟨n, exponent⟩ := by
  subst h
  simp only [Decimal.toRat, zpow_zero, mul_one, zpow_natCast]
  push_cast
  rfl

/-- **A positional text is a numeral of the same value.** -/
theorem exists_unsigned_spellDecimal {d : Decimal} (h : d.IsPositional) :
    ∃ e, Unsigned (spellDecimal d) e ∧ e.toRat = d.toRat := by
  obtain ⟨coefficient, exponent⟩ := d
  obtain ⟨hlow, hhigh⟩ := h
  have hdigits : ∀ c ∈ Nat.toDigits 10 coefficient, isDigit c = true :=
    fun _ => isDigit_of_mem_toDigits
  have hne : Nat.toDigits 10 coefficient ≠ [] := Nat.toDigits_ne_nil
  have hvalue := natOfDigits_toDigits coefficient
  unfold Decimal.place at hlow hhigh
  unfold spellDecimal
  generalize Nat.toDigits 10 coefficient = digits at *
  dsimp only at hlow hhigh ⊢
  split
  · next hwhole =>
    -- all digits stand before the point, and zeros after them
    have hzeros : ∀ c ∈ digits ++ zeros (digits.length + exponent - digits.length).toNat,
        isDigit c = true := by
      intro c hc
      rcases List.mem_append.1 hc with hc | hc
      · exact hdigits c hc
      · exact isDigit_of_mem_zeros hc
    refine ⟨_, .whole (List.append_ne_nil_of_left_ne_nil hne _) hzeros, ?_⟩
    rw [natOfDigits_append_zeros, hvalue]
    exact toRat_mk_of_nonneg (by omega)
  · split
    · next hinside =>
      -- the point divides the digits
      have htake : ∀ c ∈ digits.take (digits.length + exponent).toNat, isDigit c = true :=
        fun c hc => hdigits c (List.mem_of_mem_take hc)
      have hdrop : ∀ c ∈ digits.drop (digits.length + exponent).toNat, isDigit c = true :=
        fun c hc => hdigits c (List.mem_of_mem_drop hc)
      refine ⟨_, .pointed htake hdrop (.inl ?_), ?_⟩
      · rw [Ne, List.take_eq_nil_iff]
        rintro (hzero | hnil)
        · omega
        · exact hne hnil
      · have hfraction : -((digits.drop (digits.length + exponent).toNat).length : Int)
            = exponent := by
          rw [List.length_drop]
          omega
        rw [List.take_append_drop, hvalue, hfraction]
    · split
      · next hbefore =>
        -- the point stands before the digits, and zeros between
        have hzeros : ∀ c ∈ zeros (-(digits.length + exponent)).toNat ++ digits,
            isDigit c = true := by
          intro c hc
          rcases List.mem_append.1 hc with hc | hc
          · exact isDigit_of_mem_zeros hc
          · exact hdigits c hc
        have hzero : ∀ c ∈ ['0'], isDigit c = true :=
          List.forall_mem_singleton.2 rfl
        refine ⟨_, .pointed hzero hzeros (.inl (List.cons_ne_nil _ _)), ?_⟩
        have hdigit : natOfDigits (['0'] ++ (zeros (-(digits.length + exponent)).toNat ++ digits))
            = coefficient := by
          rw [← List.append_assoc, ← hvalue]
          exact natOfDigits_zeros_append _ digits
        have hfraction :
            -((zeros (-(digits.length + exponent)).toNat ++ digits).length : Int) = exponent := by
          rw [List.length_append, zeros, List.length_replicate]
          omega
        rw [hdigit, hfraction]
      · omega

/-- **All other texts have an exponent.** -/
theorem mem_spellDecimal_of_not_isPositional {d : Decimal} (h : ¬ d.IsPositional) :
    'e' ∈ spellDecimal d := by
  unfold Decimal.IsPositional Decimal.place at h
  unfold spellDecimal
  have hlength : 0 < (Nat.toDigits 10 d.coefficient).length := Nat.length_toDigits_pos
  dsimp only
  rw [if_neg (by omega), if_neg (by omega), if_neg (by omega)]
  exact List.mem_append_right _ List.mem_cons_self

/-! ### Characters -/

/-- The characters of numerals. -/
def IsNumeric (c : Char) : Prop :=
  isDigit c = true ∨ c ∈ ".+-".toList

theorem isNumeric_of_unsigned {cs : List Char} {d : Decimal} (h : Unsigned cs d) :
    ∀ c ∈ cs, IsNumeric c := by
  cases h with
  | whole _ hdigits => exact fun c hc => .inl (hdigits c hc)
  | pointed hwhole hfraction _ =>
    intro c hc
    rcases List.mem_append.1 hc with hc | hc
    · exact .inl (hwhole c hc)
    · rcases List.mem_cons.1 hc with rfl | hc
      · exact .inr (by decide)
      · exact .inl (hfraction c hc)

/-- Numerals have no letters. -/
theorem isNumeric_of_numeral {cs : List Char} {x : Float} (h : Numeral cs x) :
    ∀ c ∈ cs, IsNumeric c := by
  obtain ⟨hsign, hbody⟩ := h
  have hunsigned := isNumeric_of_unsigned hbody
  cases hsign with
  | none => exact hunsigned
  | plus => exact List.forall_mem_cons.2 ⟨.inr (by decide), hunsigned⟩
  | minus => exact List.forall_mem_cons.2 ⟨.inr (by decide), hunsigned⟩

theorem mem_spellDecimal {d : Decimal} : ∀ c ∈ spellDecimal d, IsNumeric c ∨ c = 'e' := by
  by_cases hpositional : d.IsPositional
  · obtain ⟨e, hunsigned, -⟩ := exists_unsigned_spellDecimal hpositional
    exact fun c hc => .inl (isNumeric_of_unsigned hunsigned c hc)
  · unfold Decimal.IsPositional Decimal.place at hpositional
    have hdigits : ∀ n, ∀ c ∈ Nat.toDigits 10 n, IsNumeric c :=
      fun n c hc => .inl (isDigit_of_mem_toDigits hc)
    have hlength : 0 < (Nat.toDigits 10 d.coefficient).length := Nat.length_toDigits_pos
    unfold spellDecimal
    dsimp only
    -- none of the notations without an exponent is used
    rw [if_neg (by omega), if_neg (by omega), if_neg (by omega)]
    intro c hc
    rcases List.mem_append.1 hc with hc | hc
    · -- one digit, and a point if more follow
      have hcoefficient := hdigits d.coefficient
      generalize Nat.toDigits 10 d.coefficient = digits at hc hcoefficient
      left
      split at hc
      · next first second rest =>
        simp only [List.mem_cons] at hc hcoefficient
        rcases hc with rfl | rfl | hc
        · exact hcoefficient _ (.inl rfl)
        · exact .inr (by decide)
        · exact hcoefficient c (.inr hc)
      · exact hcoefficient c hc
    · rcases List.mem_cons.1 hc with rfl | hc
      · exact .inr rfl
      · rcases List.mem_cons.1 hc with rfl | hc
        · left
          split
          · exact .inr (by decide)
          · exact .inr (by decide)
        · exact .inl (hdigits _ c hc)

/-- The text of a number is a text of digits, point, signs and letters. -/
theorem mem_spell {x : Float} : ∀ c ∈ spell x, IsNumeric c ∨ c ∈ "eNaNInfinity".toList := by
  have hdecimal : ∀ d, ∀ c ∈ spellDecimal d, IsNumeric c ∨ c ∈ "eNaNInfinity".toList := by
    intro d c hc
    rcases mem_spellDecimal c hc with hnumeric | rfl
    · exact .inl hnumeric
    · exact .inr (by decide)
  have hname : ∀ c ∈ "Infinity".toList, IsNumeric c ∨ c ∈ "eNaNInfinity".toList :=
    fun c hc => .inr (List.Sublist.subset (by decide) hc)
  unfold spell
  split
  · -- not a number, zero, infinity or digits, the last two with a sign perhaps
    exact fun c hc => .inr (List.Sublist.subset (by decide) hc)
  · split
    · exact List.forall_mem_singleton.2 (.inl (.inl rfl))
    · dsimp only
      split
      · split
        · exact hname
        · exact hdecimal _
      · refine List.forall_mem_cons.2 ⟨.inl (.inr (by decide)), ?_⟩
        split
        · exact hname
        · exact hdecimal _

theorem ne_nil_of_unsigned {cs : List Char} {d : Decimal} (h : Unsigned cs d) : cs ≠ [] := by
  cases h with
  | whole hne _ => exact hne
  | pointed _ _ _ => exact List.append_ne_nil_of_right_ne_nil _ (List.cons_ne_nil _ _)

theorem spellDecimal_ne_nil (d : Decimal) : spellDecimal d ≠ [] := by
  by_cases hpositional : d.IsPositional
  · obtain ⟨e, hunsigned, -⟩ := exists_unsigned_spellDecimal hpositional
    exact ne_nil_of_unsigned hunsigned
  · exact List.ne_nil_of_mem (mem_spellDecimal_of_not_isPositional hpositional)

theorem spell_ne_nil (x : Float) : spell x ≠ [] := by
  unfold spell
  split
  · decide
  · split
    · decide
    · dsimp only
      split
      · split
        · decide
        · exact spellDecimal_ne_nil _
      · exact List.cons_ne_nil _ _

end Number

end SmallLisp
