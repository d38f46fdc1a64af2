import SmallLisp.Proofs.Run.Asks

/-!
# Comparing runs

Two runs of one program over different machines, or one of them with a trace and the other without,
take the same steps and differ only in what the machines answer and in what they record. A
`Congruence` is a relation between computations that follows their construction. It need not be
reflexive: it has to relate to themselves only silent computations and output, since a relation
between runs may well depend on the record. A `Comparison` is a congruence that tracing keeps to.

If what one machine does is related to what another one does, then so is everything that asks them
(`Congruence.rel_of_asks`): each level of evaluation over the one and over the other, and whole
programs. Under a comparison this holds of each level of application as well
(`Comparison.applyStep`), and so of all machines with as many levels
(`Comparison.machines_machine`).
-/

namespace SmallLisp

/-- A relation between computations that follows their construction. -/
structure Congruence where
  /-- How two computations are related. -/
  Rel : {α : Type} → Eval α → Eval α → Prop
  silent : ∀ {α : Type} {x : Eval α}, x.IsSilent → Rel x x
  output : ∀ text, Rel (Eval.emit (.output text)) (Eval.emit (.output text))
  bind : ∀ {α β : Type} {x y : Eval α} {f g : α → Eval β}, Rel x y → (∀ a, Rel (f a) (g a)) →
    Rel (x >>= f) (y >>= g)

/-- A congruence that the record of applications keeps to, between runs of two configurations. -/
structure Comparison (config config' : Config) extends Congruence where
  traced : ∀ (name : String) (arguments : List Value) {x y : Eval Value}, Rel x y →
    Rel (Machine.traced config name arguments x) (Machine.traced config' name arguments y)

namespace Congruence

/-- What one machine does is related to what the other one does. -/
structure Machines (C : Congruence) (m n : Machine) : Prop where
  evaluate : ∀ e env, C.Rel (m.evaluate e env) (n.evaluate e env)
  apply : ∀ procedure arguments, C.Rel (m.apply procedure arguments) (n.apply procedure arguments)

variable {C : Congruence} {m n : Machine}

/-- What asks the two machines for the same things is related. -/
theorem rel_of_asks (h : C.Machines m n) {α : Type} {x : Machine → Eval α} (hx : Machine.Asks x) :
    C.Rel (x m) (x n) := by
  induction hx with
  | silent hx => exact C.silent hx
  | output text => exact C.output text
  | evaluate e env => exact h.evaluate e env
  | apply procedure arguments => exact h.apply procedure arguments
  | bind _ _ hx hf => exact C.bind hx hf

theorem evaluateStep (h : C.Machines m n) {config config' : Config}
    (hderived : config.derived = config'.derived) (e : Value) (env : Env) :
    C.Rel (Machine.evaluateStep config m e env) (Machine.evaluateStep config' n e env) := by
  rw [← Machine.evaluateStep_eq_of_derived hderived]
  exact rel_of_asks h (Machine.asks_evaluateStep config e env)

theorem program (h : C.Machines m n) (env : Env) (last : Option Value) (es : List Value) :
    C.Rel (Session.program m env last es) (Session.program n env last es) :=
  rel_of_asks h (Session.asks_program env last es)

end Congruence

namespace Comparison

open Eval Congruence

variable {config config' : Config} {C : Comparison config config'} {m n : Machine}

theorem applyStep (h : C.Machines m n) (procedure : Value) (arguments : List Value) :
    C.Rel (Machine.applyStep config m procedure arguments)
      (Machine.applyStep config' n procedure arguments) := by
  unfold Machine.applyStep
  split
  · exact C.traced _ arguments (rel_of_asks h (Machine.asks_perform _ arguments))
  · exact C.traced _ arguments (rel_of_asks h (Machine.asks_body _ _ arguments _))
  · exact C.silent (isSilent_fail _)

/-- Machines of the same number of levels, which have the same derived forms. -/
theorem machines_machine (C : Comparison config config')
    (hderived : config.derived = config'.derived) (levels : Nat) :
    C.Machines (machine config levels) (machine config' levels) := by
  induction levels with
  | zero =>
    constructor
    · intro e env
      exact C.silent (Machine.isSilent_evaluate_exhausted e env)
    · intro procedure arguments
      exact C.silent (Machine.isSilent_apply_exhausted procedure arguments)
  | succ levels ih => exact ⟨Congruence.evaluateStep ih hderived, applyStep ih⟩

end Comparison

end SmallLisp
