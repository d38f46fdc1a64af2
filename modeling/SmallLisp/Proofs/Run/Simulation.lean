import SmallLisp.Proofs.Run.Comparison

/-!
# Simulations

Two runs of one program over different machines differ only in what the machines answer. A
`Simulation` is a relation between computations that the constructions of the evaluator respect and
in which nothing but a machine makes a difference. It is a comparison (`Simulation.comparison`) that
does not depend on the record: it relates every computation to itself. So if what one machine does
is related to what another one does, then so is each level over the one to the same level over the
other (`Simulation.evaluateStep`, `Simulation.applyStep`).
-/

namespace SmallLisp

/-- A relation between computations that follows their construction. -/
structure Simulation where
  /-- How two computations are related. -/
  Rel : {α : Type} → Eval α → Eval α → Prop
  refl : ∀ {α : Type} (x : Eval α), Rel x x
  bind : ∀ {α β : Type} {x y : Eval α} {f g : α → Eval β}, Rel x y → (∀ a, Rel (f a) (g a)) →
    Rel (x >>= f) (y >>= g)
  deeper : ∀ {α : Type} {x y : Eval α}, Rel x y → Rel (Eval.deeper x) (Eval.deeper y)

namespace Simulation

/-- What one machine does is related to what the other one does. -/
structure Machines (S : Simulation) (m n : Machine) : Prop where
  evaluate : ∀ e env, S.Rel (m.evaluate e env) (n.evaluate e env)
  apply : ∀ procedure arguments, S.Rel (m.apply procedure arguments) (n.apply procedure arguments)

variable {S : Simulation} {m n : Machine} {env : Env}

theorem after {α β : Type} (x : Eval α) {f g : α → Eval β} (h : ∀ a, S.Rel (f a) (g a)) :
    S.Rel (x >>= f) (x >>= g) :=
  S.bind (S.refl x) h

theorem traced (config : Config) (name : String) (arguments : List Value) {x y : Eval Value}
    (h : S.Rel x y) :
    S.Rel (Machine.traced config name arguments x) (Machine.traced config name arguments y) := by
  unfold Machine.traced
  split
  · exact after _ fun depth => after _ fun _ => S.deeper h
  · exact h

/-- A simulation compares runs of one configuration. -/
def comparison (S : Simulation) (config : Config) : Comparison config config where
  Rel := S.Rel
  silent _ := S.refl _
  output _ := S.refl _
  bind := S.bind
  traced := traced config

theorem Machines.comparison (h : S.Machines m n) (config : Config) :
    (S.comparison config).Machines m n :=
  ⟨h.evaluate, h.apply⟩

theorem applyStep (h : S.Machines m n) (config : Config) (procedure : Value)
    (arguments : List Value) :
    S.Rel (Machine.applyStep config m procedure arguments)
      (Machine.applyStep config n procedure arguments) :=
  Comparison.applyStep (h.comparison config) procedure arguments

theorem evaluateStep (h : S.Machines m n) (config : Config) (e : Value) (env : Env) :
    S.Rel (Machine.evaluateStep config m e env) (Machine.evaluateStep config n e env) :=
  Congruence.evaluateStep (h.comparison config) rfl e env

theorem program (h : S.Machines m n) (config : Config) (env : Env) (last : Option Value)
    (es : List Value) : S.Rel (Session.program m env last es) (Session.program n env last es) :=
  Congruence.program (h.comparison config) env last es

end Simulation

end SmallLisp
