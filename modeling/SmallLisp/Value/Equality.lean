import SmallLisp.Value.Basic

/-!
# Equality of values

`isIdentical` compares atoms by content and everything else as objects; the empty list is one object
however it was made. `isAlike` compares lists element by element and all else as `isIdentical` does.
-/

namespace SmallLisp.Value

/-- The identity of an object that has one. -/
def self? : Value → Option Identity
  | number _ self => self
  | list _ self => self
  | primitive _ self => self
  | compound _ _ _ _ self => self
  | transformer _ _ _ _ self => self
  | _ => none

/-- Whether two values are one and the same object. -/
def sameObject (a b : Value) : Bool :=
  match a.self?, b.self? with
  | some i, some j => i == j
  | _, _ => false

/-- Whether two values are the same atom, with numbers compared as numbers, or two empty lists. -/
def sameContent : Value → Value → Bool
  | number x _, number y _ => x == y
  | string s, string t => s == t
  | boolean p, boolean q => p == q
  | symbol m, symbol n => m == n
  | list [] _, list [] _ => true
  | _, _ => false

/-- Equality of atoms by content and of everything else as objects. -/
def isIdentical (a b : Value) : Bool :=
  sameObject a b || sameContent a b

mutual

/-- Equality of lists by their elements and of everything else by `isIdentical`. -/
def isAlike : Value → Value → Bool
  | list xs _, list ys _ => allAlike xs ys
  | a, b => isIdentical a b

/-- Whether two lists have equal length and pairwise alike elements. -/
def allAlike : List Value → List Value → Bool
  | [], [] => true
  | x :: xs, y :: ys => isAlike x y && allAlike xs ys
  | _, _ => false

end

end SmallLisp.Value
