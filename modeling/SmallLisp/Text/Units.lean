/-!
# UTF-16 code units

Columns are counted, and names are sorted, in UTF-16 code units. A character up to U+FFFF is one
unit; any other is a high and a low surrogate.
-/

namespace SmallLisp.Text

/-- The code units of one character. -/
def units (c : Char) : List Nat :=
  if c.toNat < 0x10000 then [c.toNat]
  else [0xD800 + (c.toNat - 0x10000) / 0x400, 0xDC00 + (c.toNat - 0x10000) % 0x400]

/-- How many code units a text takes. -/
def unitCount (cs : List Char) : Nat :=
  (cs.flatMap units).length

@[simp] theorem unitCount_nil : unitCount [] = 0 := rfl

@[simp] theorem unitCount_append (a b : List Char) :
    unitCount (a ++ b) = unitCount a + unitCount b := by
  simp [unitCount]

/-- Lexicographic order of lists of code units. -/
def unitsLe : List Nat → List Nat → Bool
  | [], _ => true
  | _ :: _, [] => false
  | m :: ms, n :: ns => m < n || (m == n && unitsLe ms ns)

/-- Lexicographic order of texts by code units, in which an astral character comes before U+E000. -/
def unitOrder (a b : String) : Bool :=
  unitsLe (a.toList.flatMap units) (b.toList.flatMap units)

/-- A list of names in code unit order; equal names all stay. -/
def sortNames (names : List String) : List String :=
  names.mergeSort unitOrder

end SmallLisp.Text
