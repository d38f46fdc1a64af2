import SmallLisp.Session

/-!
# Interrupted runs

What a run starts inside can be told without adding anything to the state or to the evaluator: by
what happens if some applications are not carried out. An interrupted machine ends the run where it
would start one of them, in a failure that can depend on the application. So a run starts an
application if, whatever failure is chosen, its interruption there ends in the failure chosen for
this application.
-/

namespace SmallLisp

/-- An application: the depth at which it starts, the procedure and its arguments. -/
structure Application where
  depth : Nat
  procedure : Value
  arguments : List Value

namespace Machine

/-- The machine that does not carry out the applications of which `stops` holds in the state in
which they start: these fail. -/
def interrupted (stops : State → Value → List Value → Bool) (failure : Application → Failure)
    (m : Machine) : Machine where
  evaluate := m.evaluate
  apply procedure arguments s :=
    if stops s procedure arguments then .error (failure ⟨s.depth, procedure, arguments⟩) s
    else m.apply procedure arguments s

/-- The machine with the given number of levels that is interrupted at each of them. A machine
without levels starts nothing. -/
def interruptedLevels (stops : State → Value → List Value → Bool)
    (failure : Application → Failure) (config : Config) : Nat → Machine
  | 0 => exhausted
  | levels + 1 =>
    let m := interruptedLevels stops failure config levels
    interrupted stops failure ⟨evaluateStep config m, applyStep config m⟩

variable {stops : State → Value → List Value → Bool} {failure : Application → Failure}
  {config : Config} {levels : Nat} {procedure : Value} {arguments : List Value} {s : State}

/-- Where it is interrupted, an application fails and does nothing. -/
theorem apply_interruptedLevels_of_stops (h : stops s procedure arguments = true) :
    (interruptedLevels stops failure config (levels + 1)).apply procedure arguments s
      = .error (failure ⟨s.depth, procedure, arguments⟩) s :=
  if_pos h

/-- Where it is not interrupted, an application takes its step over the interrupted machine. -/
theorem apply_interruptedLevels_of_not_stops (h : stops s procedure arguments = false) :
    (interruptedLevels stops failure config (levels + 1)).apply procedure arguments s
      = applyStep config (interruptedLevels stops failure config levels) procedure arguments s :=
  if_neg (ne_true_of_eq_false h)

/-- A machine that is never interrupted is the machine itself. -/
theorem interruptedLevels_of_never
    (h : ∀ s procedure arguments, stops s procedure arguments = false)
    (levels : Nat) : interruptedLevels stops failure config levels = machine config levels := by
  -- a machine that is never stopped is the machine itself
  have hinterrupted : ∀ m : Machine, interrupted stops failure m = m := by
    intro m
    have happly : (interrupted stops failure m).apply = m.apply := by
      funext procedure arguments s
      exact if_neg (ne_true_of_eq_false (h s procedure arguments))
    exact congrArg (Machine.mk m.evaluate) happly
  induction levels with
  | zero => rfl
  | succ levels ih =>
    rw [interruptedLevels, ih]
    exact hinterrupted _

end Machine

end SmallLisp
