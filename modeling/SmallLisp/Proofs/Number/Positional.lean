import SmallLisp.Proofs.Number.Nearest
import SmallLisp.Proofs.Number.Shortest

/-!
# Numbers that read back

Numbers are written in the notation of the host, with an exponent if they are large or small, and
numerals have no exponents. These and the names of what is no finite number are the only texts of
numbers that are no numerals. All other texts are numerals, and a numeral that was written denotes
the number that it was written for (`readsBack_iff`): the shortest decimal lies in the interval of
the double, and the reader rounds it to the double that owns the interval.
-/

namespace SmallLisp.Number

open Float.Model Float.Model.UnpackedFloat
open Decimal (Binary)

variable {x : Float}

/-- The number is finite, and it is written without an exponent. -/
def IsPositional (x : Float) : Prop :=
  x.isFinite = true ∧ 'e' ∉ spell x

instance (x : Float) : Decidable (IsPositional x) :=
  inferInstanceAs (Decidable (_ ∧ _))

/-- The number is written as a numeral, and the numeral denotes an equal number. -/
def ReadsBack (x : Float) : Prop :=
  ∃ y, ofNumeral? (spell x) = some y ∧ (y == x) = true

theorem isNaN_of_isFinite (h : x.isFinite = true) : x.isNaN = false := by
  change x.toModel.unpack.isFinite = true at h
  change x.toModel.unpack.isNaN = false
  cases hunpack : x.toModel.unpack with
  | notANumber =>
    rw [hunpack] at h
    cases h
  | _ => rfl

theorem isInf_of_isFinite (h : x.isFinite = true) : x.isInf = false := by
  change x.toModel.unpack.isFinite = true at h
  change x.toModel.unpack.isInf = false
  cases hunpack : x.toModel.unpack with
  | infinity =>
    rw [hunpack] at h
    cases h
  | _ => rfl

/-- The text of a number that is not zero: a sign, and the name of infinity or the
shortest decimal. -/
theorem spell_of_ne_zero (hnan : x.isNaN = false) (hne : (x == 0.0) = false) :
    spell x = (if isNegative x then ['-'] else []) ++
      if x.isInf then "Infinity".toList else spellDecimal (Decimal.shortest (parts x)) := by
  rw [spell, hnan, hne, if_neg Bool.false_ne_true, if_neg Bool.false_ne_true]
  dsimp only
  by_cases hpositive : x.toBits.toNat < Binary.signBit
  · rw [if_pos hpositive, isNegative, decide_eq_false (Nat.not_le.2 hpositive)]
    rfl
  · rw [if_neg hpositive, isNegative, decide_eq_true (Nat.not_lt.1 hpositive)]
    rfl

theorem spell_of_isFinite (hfinite : x.isFinite = true) (hne : (x == 0.0) = false) :
    spell x = (if isNegative x then ['-'] else [])
      ++ spellDecimal (Decimal.shortest (parts x)) := by
  rw [spell_of_ne_zero (isNaN_of_isFinite hfinite) hne, isInf_of_isFinite hfinite,
    if_neg Bool.false_ne_true]

theorem sign_isNegative (negative : Bool) : Sign (if negative then ['-'] else []) negative := by
  cases negative with
  | false => exact .none
  | true => exact .minus

/-- The names of what is no finite number have capital letters. -/
theorem mem_spell_of_not_isFinite (h : x.isFinite = false) : 'N' ∈ spell x ∨ 'I' ∈ spell x := by
  change x.toModel.unpack.isFinite = false at h
  -- the letters of `NaN` and `Infinity`
  cases hunpack : x.toModel.unpack with
  | notANumber =>
    have hnan : x.isNaN = true := congrArg UnpackedFloat.isNaN hunpack
    rw [spell, if_pos hnan]
    exact .inl (by decide)
  | infinity sign =>
    have hnan : x.isNaN = false := congrArg UnpackedFloat.isNaN hunpack
    have hinf : x.isInf = true := congrArg UnpackedFloat.isInf hunpack
    have hne : (x == 0.0) = false := by
      rw [beq_eq_compare, hunpack, unpack_zero]
      cases sign <;> rfl
    right
    rw [spell_of_ne_zero hnan hne, hinf, if_pos rfl]
    exact List.mem_append_right _ List.mem_cons_self
  | zero | finite =>
    rw [hunpack] at h
    cases h

theorem not_isNumeric_letter : ¬ IsNumeric 'N' ∧ ¬ IsNumeric 'I' ∧ ¬ IsNumeric 'e' := by
  refine ⟨?_, ?_, ?_⟩
  all_goals
    rintro (hdigit | hmark)
    · revert hdigit
      decide
    · revert hmark
      decide

/-- Zero is written without its sign, and the two zeros are equal. -/
theorem readsBack_zero (hfinite : x.isFinite = true) (h : (x == 0.0) = true) : ReadsBack x := by
  have hspell : spell x = ['0'] := by
    rw [spell, isNaN_of_isFinite hfinite, if_neg Bool.false_ne_true, if_pos h]
  have hread : ofNumeral? ['0'] = some 0.0 := by decide +kernel
  refine ⟨0.0, hspell ▸ hread, ?_⟩
  rw [beq_eq_compare, unpack_zero] at h ⊢
  -- both zeros are written without a sign, and are equal to the zero that is read
  cases hunpack : x.toModel.unpack with
  | zero sign => rfl
  | notANumber =>
    rw [hunpack] at h
    cases h
  | infinity sign | finite sign =>
    rw [hunpack] at h
    cases sign <;> cases h

/-- **Exactly the finite numbers that are written without an exponent read back.** -/
theorem readsBack_iff : ReadsBack x ↔ IsPositional x := by
  constructor
  · rintro ⟨y, hread, -⟩
    -- a numeral has digits, a point and a sign, so none of the letters
    have hnumeric := isNumeric_of_numeral (ofNumeral?_eq_some_iff.1 hread)
    obtain ⟨hN, hI, he⟩ := not_isNumeric_letter
    refine ⟨?_, fun hmem => he (hnumeric _ hmem)⟩
    by_contra hinfinite
    rcases mem_spell_of_not_isFinite (eq_false_of_ne_true hinfinite) with hmem | hmem
    · exact hN (hnumeric _ hmem)
    · exact hI (hnumeric _ hmem)
  · rintro ⟨hfinite, hplain⟩
    cases hzero : x == 0.0 with
    | true => exact readsBack_zero hfinite hzero
    | false =>
      have hb := isDouble_parts hfinite hzero
      have hspell := spell_of_isFinite hfinite hzero
      -- an exponent would be marked by a letter
      have hpositional : (Decimal.shortest (parts x)).IsPositional := by
        by_contra hexponent
        refine hplain (hspell ▸ List.mem_append_right _ ?_)
        exact mem_spellDecimal_of_not_isPositional hexponent
      obtain ⟨d, hunsigned, hvalue⟩ := exists_unsigned_spellDecimal hpositional
      -- the shortest digits lie nearest to the number they were found for
      have howns := Decimal.owns_shortest hb
      rw [← hvalue] at howns
      have hnumeral := Numeral.signed (sign_isNegative (isNegative x)) hunsigned
      rw [← hspell] at hnumeral
      exact ⟨_, ofNumeral?_eq_some_iff.2 hnumeral,
        beq_of_unpack (unpack_toModel hfinite hzero) (unpack_ofDecimal hb howns (isNegative x))⟩

/-- Ten to the twenty-first is the first power of ten that is written with an exponent. -/
example : IsPositional 1e20 ∧ ¬ IsPositional 1e21 := by
  decide +kernel

end SmallLisp.Number
