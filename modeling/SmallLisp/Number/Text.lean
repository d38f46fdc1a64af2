import SmallLisp.Number.Shortest

/-!
# The text of numbers

A number is written with the fewest digits that read back. The notation is positional for values
from `10 ^ -6` up to `10 ^ 21`, both signs alike, and otherwise scientific with a signed exponent;
zero of either sign is `0`, and the three values that are no finite number have names. `ofText?`
reads all these forms; `ofNumeral?` reads the numerals of the language, which have no exponent.
-/

namespace SmallLisp.Number

/-- `count` zeros. -/
def zeros (count : Nat) : List Char :=
  List.replicate count '0'

/-- The digits of a positive decimal, written out. With `place` digits before the point the notation
is positional for `-6 < place ≤ 21`. -/
def spellDecimal (d : Decimal) : List Char :=
  let digits := Nat.toDigits 10 d.coefficient
  let place : Int := digits.length + d.exponent
  -- the digits and zeros behind them
  if digits.length ≤ place ∧ place ≤ 21 then
    digits ++ zeros (place - digits.length).toNat
  -- the point among the digits
  else if 0 < place ∧ place ≤ 21 then
    digits.take place.toNat ++ '.' :: digits.drop place.toNat
  -- the point in front of them
  else if -6 < place ∧ place ≤ 0 then
    '0' :: '.' :: (zeros (-place).toNat ++ digits)
  else
    let exponent := place - 1
    let sign := if exponent < 0 then '-' else '+'
    let mantissa :=
      match digits with
      | first :: second :: rest => first :: '.' :: second :: rest
      | short => short
    mantissa ++ 'e' :: sign :: Nat.toDigits 10 exponent.natAbs

/-- The text of a number, sign of zero apart. -/
def spell (x : Float) : List Char :=
  if x.isNaN then "NaN".toList
  else if x == 0.0 then ['0']
  else
    let bits := x.toBits.toNat
    let magnitude := bits % Decimal.Binary.signBit
    let body :=
      if x.isInf then "Infinity".toList
      else spellDecimal (Decimal.shortest (Decimal.Binary.ofBits magnitude))
    if bits < Decimal.Binary.signBit then body else '-' :: body

/-- The text of a number as a string. -/
def text (x : Float) : String :=
  String.ofList (spell x)

/-! ### Reading -/

/-- An ASCII digit. -/
def isDigit (c : Char) : Bool :=
  '0' ≤ c && c ≤ '9'

/-- The number that a run of digits denotes. -/
def natOfDigits (digits : List Char) : Nat :=
  digits.foldl (fun n c => 10 * n + (c.toNat - '0'.toNat)) 0

/-- A sign and the text after it. -/
def splitSign : List Char → Bool × List Char
  | '-' :: rest => (true, rest)
  | '+' :: rest => (false, rest)
  | rest => (false, rest)

/-- Digits with an optional point: one digit before the point, or one after it, is required. -/
def unsigned? (cs : List Char) : Option Decimal :=
  match cs.takeWhile isDigit, cs.dropWhile isDigit with
  -- a point alone is no number
  | [], '.' :: fraction =>
    if fraction ≠ [] ∧ fraction.all isDigit then
      some ⟨natOfDigits fraction, -(fraction.length : Int)⟩
    else none
  | [], _ => none
  | whole, [] => some ⟨natOfDigits whole, 0⟩
  | whole, '.' :: fraction =>
    if fraction.all isDigit then
      some ⟨natOfDigits (whole ++ fraction), -(fraction.length : Int)⟩
    else none
  | _, _ => none

/-- The double nearest to a decimal, with the given sign. -/
def ofDecimal (negative : Bool) (d : Decimal) : Float :=
  let magnitude :=
    if d.exponent < 0 then Float.ofScientific d.coefficient true (-d.exponent).toNat
    else Float.ofScientific d.coefficient false d.exponent.toNat
  if negative then -magnitude else magnitude

/-- The number that a numeral of the language denotes: a sign or none, then digits with a point or
none. Anything else is no numeral. -/
def ofNumeral? (cs : List Char) : Option Float :=
  let (negative, body) := splitSign cs
  (unsigned? body).map (ofDecimal negative)

/-- The exponent after the `e` of scientific notation. -/
def exponent? (cs : List Char) : Option Int :=
  let (negative, digits) := splitSign cs
  if digits ≠ [] ∧ digits.all isDigit then
    some (if negative then -(natOfDigits digits : Int) else natOfDigits digits)
  else none

/-- The number that `text` or scientific notation writes. -/
def ofText? (s : String) : Option Float :=
  let (negative, body) := splitSign s.toList
  if body = "NaN".toList then some (0.0 / 0.0)
  else if body = "Infinity".toList then some (if negative then -1.0 / 0.0 else 1.0 / 0.0)
  else do
    let d ← unsigned? (body.takeWhile (· ≠ 'e'))
    match body.dropWhile (· ≠ 'e') with
    | [] => pure (ofDecimal negative d)
    | _ :: tail => do
      let e ← exponent? tail
      pure (ofDecimal negative ⟨d.coefficient, d.exponent + e⟩)

end SmallLisp.Number
