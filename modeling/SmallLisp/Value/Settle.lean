import SmallLisp.Value.Basic

/-!
# Settling

A value settles when every object in it receives an identity. Objects that have one keep it, and
nothing below them is visited again: whatever a settled object holds settled before it. So a part
that two values share stays the same object in both.
-/

namespace SmallLisp.Value

/-- Whether a value is settled: no object, or an object with an identity. -/
def isSettled : Value → Bool
  | number _ self => self.isSome
  | list _ self => self.isSome
  | primitive _ self => self.isSome
  | compound _ _ _ _ self => self.isSome
  | transformer _ _ _ _ self => self.isSome
  | string _ | boolean _ | symbol _ => true

mutual

/-- Gives every new object of a value an identity, counting up from `next`; the second component is
the next identity that is free. A new list of settled values keeps its elements as they stand, which
is no exception (`settle_list`). -/
def settle : Value → Identity → Value × Identity
  | number x none, next => (number x (some next), next + 1)
  | list elements none, next =>
    if elements.all isSettled then (list elements (some next), next + 1)
    else
      let (settled, free) := settleAll elements (next + 1)
      (list settled (some next), free)
  | primitive action none, next => (primitive action (some next), next + 1)
  | compound name parameters body env none, next =>
    let (settled, free) := settleAll body (next + 1)
    (compound name parameters settled env (some next), free)
  | transformer name literals clauses env none, next =>
    (transformer name literals clauses env (some next), next + 1)
  | v, next => (v, next)

/-- Settles the values of a list from left to right. -/
def settleAll : List Value → Identity → List Value × Identity
  | [], next => ([], next)
  | v :: vs, next =>
    let (settled, middle) := v.settle next
    let (rest, free) := settleAll vs middle
    (settled :: rest, free)

end

mutual

/-- The lengths of the new lists of a value: of those that settling would give an identity. -/
def newLengths : Value → List Nat
  | list elements none => elements.length :: newLengthsIn elements
  | _ => []

/-- The lengths of the new lists of several values. -/
def newLengthsIn : List Value → List Nat
  | [] => []
  | v :: vs => v.newLengths ++ newLengthsIn vs

end

/-- A settled value keeps its identity and those of everything below it. -/
theorem settle_of_isSettled {v : Value} (h : v.isSettled = true) (next : Identity) :
    v.settle next = (v, next) := by
  unfold settle
  split <;> simp_all [isSettled]

theorem settleAll_of_all_isSettled {vs : List Value} (h : vs.all isSettled = true)
    (next : Identity) : settleAll vs next = (vs, next) := by
  induction vs with
  | nil => rfl
  | cons v vs ih =>
    rw [List.all_cons, Bool.and_eq_true] at h
    simp [settleAll, settle_of_isSettled h.1, ih h.2]

/-- A new list settles to the list of its settled elements. -/
theorem settle_list (elements : List Value) (next : Identity) :
    (list elements none).settle next
      = (list (settleAll elements (next + 1)).1 (some next),
          (settleAll elements (next + 1)).2) := by
  unfold settle
  split
  · rw [settleAll_of_all_isSettled ‹_›]
  · rfl

@[simp] theorem settle_string (text : String) (next : Identity) :
    (string text).settle next = (string text, next) := by simp [settle]

@[simp] theorem settle_boolean (b : Bool) (next : Identity) :
    (boolean b).settle next = (boolean b, next) := by simp [settle]

@[simp] theorem settle_symbol (name : String) (next : Identity) :
    (symbol name).settle next = (symbol name, next) := by simp [settle]

end SmallLisp.Value
