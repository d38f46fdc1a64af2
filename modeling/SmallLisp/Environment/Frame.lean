import SmallLisp.Table
import SmallLisp.Value.Basic
import SmallLisp.Failure.Basic

/-!
# Frames

A frame is one level of scope: names in the order in which they were first bound, each with a value,
or declared without one.
-/

namespace SmallLisp

/-- One level of scope. A name whose entry is `none` is declared but has no value. -/
abbrev Frame := Table (Option Value)

namespace Frame

/-- Pairs each name with the value at its place. Names beyond the last value have none, and values
beyond the last name are left out. -/
def pair : List String → List (Option Value) → List (String × Option Value)
  | [], _ => []
  | name :: names, [] => (name, none) :: pair names []
  | name :: names, value :: values => (name, value) :: pair names values

/-- The frame that binds the names to the values, of equal names the last. -/
def bind (names : List String) (values : List (Option Value)) : Frame :=
  Table.ofPairs (pair names values)

/-- The frame that binds as many names as there are values. -/
def ofArguments (names : List String) (values : List (Option Value)) : Except EvalFault Frame :=
  if names.length = values.length then .ok (bind names values)
  else .error (.arityMismatch (.exactly names.length) values.length)

/-- The value of a name, if the frame binds it to one. -/
def value? (f : Frame) (name : String) : Option Value :=
  (f.get? name).join

theorem pair_eq_zip {names : List String} {values : List (Option Value)}
    (h : names.length = values.length) : pair names values = names.zip values := by
  induction names generalizing values with
  | nil => rfl
  | cons name names ih =>
    cases values with
    | nil => simp at h
    | cons value values => simp [pair, ih (Nat.succ.inj h)]

end Frame

end SmallLisp
