import SmallLisp.Number.Text

/-!
# Numerals

`Numeral cs x` says how numbers are written: a sign or none, then digits with a point or without,
among them at least one digit. The number is the double nearest to the decimal. `ofNumeral?` takes a
text apart with `takeWhile` and `dropWhile`; it accepts the numerals and nothing else
(`ofNumeral?_eq_some_iff`).
-/

namespace SmallLisp.Number

/-- A sign or none, and whether it makes the number negative. -/
inductive Sign : List Char → Bool → Prop where
  | none : Sign [] false
  | plus : Sign ['+'] false
  | minus : Sign ['-'] true

/-- The unsigned numerals and the decimals that they denote. -/
inductive Unsigned : List Char → Decimal → Prop where
  /-- One or more digits. -/
  | whole {digits : List Char} : digits ≠ [] → (∀ c ∈ digits, isDigit c = true) →
      Unsigned digits ⟨natOfDigits digits, 0⟩
  /-- A point between digits, of which those on one side may be missing. -/
  | pointed {whole fraction : List Char} : (∀ c ∈ whole, isDigit c = true) →
      (∀ c ∈ fraction, isDigit c = true) → whole ≠ [] ∨ fraction ≠ [] →
      Unsigned (whole ++ '.' :: fraction)
        ⟨natOfDigits (whole ++ fraction), -(fraction.length : Int)⟩

/-- The numerals and the numbers that they denote. -/
inductive Numeral : List Char → Float → Prop where
  | signed {sign body : List Char} {negative : Bool} {d : Decimal} : Sign sign negative →
      Unsigned body d → Numeral (sign ++ body) (ofDecimal negative d)

/-- A digit is neither a sign nor a point. -/
theorem ne_of_isDigit {c : Char} (h : isDigit c = true) : c ≠ '+' ∧ c ≠ '-' ∧ c ≠ '.' := by
  refine ⟨?_, ?_, ?_⟩
  all_goals
    rintro rfl
    revert h
    decide

/-- The digits that a text begins with, and what follows them. -/
theorem takeWhile_dropWhile_digits {whole rest : List Char} (hwhole : ∀ c ∈ whole, isDigit c = true)
    (hrest : ∀ c ∈ rest.head?, isDigit c = false) :
    (whole ++ rest).takeWhile isDigit = whole ∧ (whole ++ rest).dropWhile isDigit = rest := by
  rw [List.takeWhile_append_of_pos hwhole, List.dropWhile_append_of_pos hwhole]
  cases rest with
  | nil => exact ⟨List.append_nil whole, rfl⟩
  | cons c rest =>
    have hc : ¬ isDigit c = true := by simp [hrest c rfl]
    exact ⟨by rw [List.takeWhile_cons_of_neg hc, List.append_nil], List.dropWhile_cons_of_neg hc⟩

theorem mem_takeWhile_digits {cs : List Char} : ∀ c ∈ cs.takeWhile isDigit, isDigit c = true :=
  fun _ hc => List.all_eq_true.1 List.all_takeWhile _ hc

theorem unsigned_of_unsigned? {cs : List Char} {d : Decimal} (h : unsigned? cs = some d) :
    Unsigned cs d := by
  have hcs : cs.takeWhile isDigit ++ cs.dropWhile isDigit = cs := List.takeWhile_append_dropWhile
  have hdigits : ∀ c ∈ cs.takeWhile isDigit, isDigit c = true := mem_takeWhile_digits
  unfold unsigned? at h
  -- the digits in front and what follows them, which is nothing, a point and digits, or no numeral
  generalize cs.takeWhile isDigit = whole at h hcs hdigits
  generalize cs.dropWhile isDigit = rest at h hcs
  subst hcs
  split at h
  · next fraction =>
    split at h
    · next hfraction =>
      cases h
      exact .pointed nofun (List.all_eq_true.1 hfraction.2) (.inr hfraction.1)
    · cases h
  · cases h
  · next hne =>
    cases h
    rw [List.append_nil]
    exact .whole (fun heq => hne heq) hdigits
  · next fraction hne =>
    split at h
    · next hfraction =>
      cases h
      exact .pointed hdigits (List.all_eq_true.1 hfraction) (.inl fun heq => hne heq)
    · cases h
  · cases h

theorem unsigned?_of_unsigned {cs : List Char} {d : Decimal} (h : Unsigned cs d) :
    unsigned? cs = some d := by
  cases h with
  | @whole digits hne hdigits =>
    have hend : ∀ c ∈ ([] : List Char).head?, isDigit c = false := nofun
    -- the leading digits are all of it
    obtain ⟨htake, hdrop⟩ := takeWhile_dropWhile_digits hdigits hend
    rw [List.append_nil] at htake hdrop
    rw [unsigned?, htake, hdrop]
    split <;> simp_all
  | @pointed whole fraction hwhole hfraction hsome =>
    -- the leading digits end at the point
    have hpoint : ∀ c ∈ ('.' :: fraction).head?, isDigit c = false := by simp [isDigit]
    obtain ⟨htake, hdrop⟩ := takeWhile_dropWhile_digits hwhole hpoint
    have hall : fraction.all isDigit = true := List.all_eq_true.2 hfraction
    rw [unsigned?, htake, hdrop]
    split <;> simp_all

theorem unsigned?_eq_some_iff {cs : List Char} {d : Decimal} :
    unsigned? cs = some d ↔ Unsigned cs d :=
  ⟨unsigned_of_unsigned?, unsigned?_of_unsigned⟩

/-- An unsigned numeral begins with a digit or a point, which is no sign. -/
theorem splitSign_of_unsigned {cs : List Char} {d : Decimal} (h : Unsigned cs d) :
    splitSign cs = (false, cs) := by
  -- what begins with a digit or the point has no sign
  have hplain : ∀ c rest, c ≠ '+' → c ≠ '-' → splitSign (c :: rest) = (false, c :: rest) :=
    fun c rest hplus hminus => splitSign.eq_3 _ (fun _ h => hminus (List.cons.inj h).1)
      fun _ h => hplus (List.cons.inj h).1
  cases h with
  | @whole digits hne hdigits =>
    obtain ⟨c, rest, rfl⟩ := List.exists_cons_of_ne_nil hne
    obtain ⟨hplus, hminus, -⟩ := ne_of_isDigit (hdigits c List.mem_cons_self)
    exact hplain c rest hplus hminus
  | @pointed whole fraction hwhole _ _ =>
    cases whole with
    | nil => rfl
    | cons c whole =>
      obtain ⟨hplus, hminus, -⟩ := ne_of_isDigit (hwhole c List.mem_cons_self)
      exact hplain c _ hplus hminus

/-- What is split off is a sign. -/
theorem exists_sign (cs : List Char) :
    ∃ sign, Sign sign (splitSign cs).1 ∧ sign ++ (splitSign cs).2 = cs := by
  unfold splitSign
  split
  · exact ⟨_, .minus, rfl⟩
  · exact ⟨_, .plus, rfl⟩
  · exact ⟨_, .none, rfl⟩

/-- **Exactly the numerals are numbers**, and each is the number that it denotes. -/
theorem ofNumeral?_eq_some_iff {cs : List Char} {x : Float} :
    ofNumeral? cs = some x ↔ Numeral cs x := by
  constructor
  · intro h
    change (unsigned? (splitSign cs).2).map (ofDecimal (splitSign cs).1) = some x at h
    rw [Option.map_eq_some_iff] at h
    obtain ⟨d, hd, rfl⟩ := h
    obtain ⟨sign, hsign, hcs⟩ := exists_sign cs
    have hnumeral := Numeral.signed hsign (unsigned?_eq_some_iff.1 hd)
    rwa [hcs] at hnumeral
  · rintro ⟨hsign, hbody⟩
    have hnumber := unsigned?_eq_some_iff.2 hbody
    -- without a sign the first character is a digit or the point, so none is split off
    cases hsign with
    | none =>
      rw [ofNumeral?, List.nil_append, splitSign_of_unsigned hbody]
      exact congrArg (Option.map (ofDecimal false)) hnumber
    | plus => exact congrArg (Option.map (ofDecimal false)) hnumber
    | minus => exact congrArg (Option.map (ofDecimal true)) hnumber

theorem ofNumeral?_eq_none_iff {cs : List Char} :
    ofNumeral? cs = none ↔ ∀ x, ¬ Numeral cs x := by
  rw [Option.eq_none_iff_forall_ne_some]
  exact forall_congr' fun x => not_congr ofNumeral?_eq_some_iff

/-- No numeral begins with a hash sign. -/
theorem Numeral.head?_ne {cs : List Char} {x : Float} (h : Numeral cs x) :
    cs.head? ≠ some '#' := by
  have hdigit : ∀ c, isDigit c = true → c ≠ '#' := by
    rintro c hc rfl
    revert hc
    decide
  -- behind the sign stands a digit or the point
  have hunsigned : ∀ body d, Unsigned body d → body.head? ≠ some '#' := by
    intro body d hbody hhead
    obtain ⟨rest, rfl⟩ := List.head?_eq_some_iff.1 hhead
    generalize htext : '#' :: rest = text at hbody
    cases hbody with
    | whole _ hdigits =>
      subst htext
      exact hdigit _ (hdigits _ List.mem_cons_self) rfl
    | @pointed whole fraction hwhole _ _ =>
      cases whole with
      | nil => cases htext
      | cons c whole =>
        obtain ⟨rfl, -⟩ := List.cons.inj htext
        exact hdigit _ (hwhole _ List.mem_cons_self) rfl
  obtain ⟨hsign, hbody⟩ := h
  cases hsign with
  | none => exact hunsigned _ _ hbody
  | plus => simp
  | minus => simp

end SmallLisp.Number
