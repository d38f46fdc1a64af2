/-!
# The shortest decimal of a double

A finite double is a whole mantissa times a power of two, and it owns the interval of reals that
round to it. `Decimal.shortest` is the decimal with the fewest digits in that interval; of several
with that many digits it takes the nearest to the double, and the even one of two equally near.

The search needs only the two neighbours of the double on each decimal grid: if any point of a
grid lies in the interval, one of those two does. Everything is exact arithmetic on `Nat`.
-/

namespace SmallLisp

/-- A decimal `coefficient · 10 ^ exponent`. -/
structure Decimal where
  coefficient : Nat
  exponent : Int
  deriving Repr, DecidableEq

namespace Decimal

/-- A positive double taken apart: it is `mantissa · 2 ^ exponent`, and `boundary` holds if the next
smaller double is only half as far away as the next larger one. -/
structure Binary where
  mantissa : Nat
  exponent : Int
  boundary : Bool
  deriving Repr, DecidableEq

/-- How many doubles share a sign and an exponent: two to the power of fifty-two. -/
def Binary.fractions : Nat := 0x10000000000000

/-- The bit of the sign, the highest of the sixty-four. -/
def Binary.signBit : Nat := 0x8000000000000000

/-- The parts of the double whose bits, sign apart, are given. -/
def Binary.ofBits (bits : Nat) : Binary :=
  let biased : Nat := bits / fractions
  let fraction : Nat := bits % fractions
  -- The lowest exponent belongs to the doubles without the implicit leading one.
  if biased = 0 then ⟨fraction, -1074, false⟩
  else ⟨fractions + fraction, (biased : Int) - 1075, fraction = 0 && 1 < biased⟩

/-- The number of decimal digits of a positive number. -/
def digitCount (n : Nat) : Nat :=
  (Nat.toDigits 10 n).length

/-- The reals that round to one double, as numerators over a common denominator. The ends belong to
the interval if `closed` holds. -/
structure Interval where
  low : Nat
  value : Nat
  high : Nat
  denominator : Nat
  closed : Bool
  deriving Repr

/-- The interval of a double. Quarters of the last place carry both of its ends. -/
def Interval.ofBinary (b : Binary) : Interval :=
  let scale := b.exponent - 2
  let up := Nat.pow 2 scale.toNat
  let mantissa := 4 * b.mantissa
  { low := (mantissa - if b.boundary then 1 else 2) * up
    value := mantissa * up
    high := (mantissa + 2) * up
    denominator := Nat.pow 2 (-scale).toNat
    closed := b.mantissa % 2 = 0 }

/-- Whether the decimal lies in the interval. -/
def Interval.holds (i : Interval) (d : Decimal) : Bool :=
  let point := d.coefficient * Nat.pow 10 d.exponent.toNat * i.denominator
  let shrink := Nat.pow 10 (-d.exponent).toNat
  if i.closed then i.low * shrink ≤ point && point ≤ i.high * shrink
  else i.low * shrink < point && point < i.high * shrink

/-- The position of the first digit: the value is at least `10 ^ (p - 1)` and below `10 ^ p`. -/
def Interval.position (i : Interval) : Int :=
  if i.denominator ≤ i.value then digitCount (i.value / i.denominator)
  else 1 - digitCount ((i.denominator + i.value - 1) / i.value - 1)

/-- The best decimal of the interval on the grid of the given exponent: the only neighbour of the
value that lies in the interval, or of both the nearer one. -/
def Interval.nearest? (i : Interval) (exponent : Int) : Option Decimal :=
  let numerator := i.value * Nat.pow 10 (-exponent).toNat
  let denominator := i.denominator * Nat.pow 10 exponent.toNat
  let below := numerator / denominator
  let lower : Decimal := ⟨below, exponent⟩
  let upper : Decimal := ⟨below + 1, exponent⟩
  match i.holds lower, i.holds upper with
  | true, false => some lower
  | false, true => some upper
  | false, false => none
  | true, true =>
    let twice := 2 * (numerator % denominator)
    if twice < denominator || (twice = denominator && below % 2 = 0) then some lower else some upper

/-- The first hit on the grids that give `digits`, `digits + 1`, … digits. -/
def Interval.search (i : Interval) (position : Int) : Nat → Nat → Option Decimal
  | _, 0 => none
  | digits, tries + 1 =>
    match i.nearest? (position - digits) with
    | some d => some d
    | none => i.search position (digits + 1) tries

/-- A decimal of the same value whose coefficient does not end in zero, if it has a nonzero one;
`fuel` bounds the zeros dropped. -/
def dropZeros (d : Decimal) : Nat → Decimal
  | 0 => d
  | fuel + 1 =>
    if d.coefficient % 10 = 0 then dropZeros ⟨d.coefficient / 10, d.exponent + 1⟩ fuel else d

/-- The shortest decimal that reads back as the positive double with the given parts. Seventeen
digits always suffice. -/
def shortest (b : Binary) : Decimal :=
  let i := Interval.ofBinary b
  ((i.search i.position 1 17).getD ⟨b.mantissa, 0⟩).dropZeros 17

end Decimal

end SmallLisp
