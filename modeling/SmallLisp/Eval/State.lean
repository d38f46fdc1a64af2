import SmallLisp.Eval.Form
import SmallLisp.Environment.Store
import SmallLisp.Value.Settle

/-!
# Evaluations

An evaluation runs in a `State` and ends in a value or in a failure; what it did to the state before
a failure stays done. The state holds the frames, the registry of special forms, the next free
identity, how many traced calls are under way, and the record of what was written.
-/

namespace SmallLisp

/-- Something that an evaluation lets the outside see. -/
inductive Event where
  | output (text : String)
  | trace (line : String)
  deriving Repr, DecidableEq

/-- What evaluations share and change. -/
structure State where
  store : Store
  registry : Registry SpecialForm
  nextIdentity : Identity
  depth : Nat
  events : Array Event

/-- The state before anything is defined. -/
def State.initial (registry : Registry SpecialForm) : State :=
  { store := ∅, registry, nextIdentity := 0, depth := 0, events := #[] }

/-- A computation that changes the state and may fail. -/
abbrev Eval := EStateM Failure State

namespace Eval

/-- Ends with a fault of evaluation. -/
def fail (fault : EvalFault) : Eval α :=
  throw (.eval fault)

/-- Ends with a fault of shape. -/
def malformed (fault : SyntaxFault) : Eval α :=
  throw (.malformed fault)

/-- The value of a pure computation, or its fault. -/
def ofExcept (toFailure : ε → Failure) : Except ε α → Eval α
  | .ok a => pure a
  | .error fault => throw (toFailure fault)

/-- Appends to the record. -/
def emit (event : Event) : Eval Unit :=
  modify fun s => { s with events := s.events.push event }

/-- Gives the new objects of a value their identities. -/
def settle (v : Value) : Eval Value :=
  modifyGet fun s =>
    let (settled, free) := v.settle s.nextIdentity
    (settled, { s with nextIdentity := free })

/-- Settles several values from left to right. -/
def settleAll (vs : List Value) : Eval (List Value) :=
  modifyGet fun s =>
    let (settled, free) := Value.settleAll vs s.nextIdentity
    (settled, { s with nextIdentity := free })

/-- From here on no form can be registered. -/
def closeRegistry : Eval Unit :=
  modify fun s => { s with registry := s.registry.close }

/-- Registers a form. -/
def register (tag : String) (form : SpecialForm) : Eval Unit := do
  let s ← get
  let registry ← ofExcept .usage (s.registry.register tag form)
  modify fun s => { s with registry }

/-- The value of a name. -/
def lookup (env : Env) (name : String) : Eval Value := do
  let s ← get
  ofExcept .eval (s.store.lookup env name)

/-- Writes a value into a frame. -/
def setSlot (id : FrameId) (name : String) (v : Value) : Eval Unit :=
  modify fun s => { s with store := s.store.setSlot id name (some v) }

/-- Overwrites the nearest binding of a name. -/
def assign (env : Env) (name : String) (v : Value) : Eval Unit := do
  let id ← ofExcept .eval ((← get).store.assignable env name)
  setSlot id name v

/-- Binds a name in the innermost frame. -/
def define (env : Env) (name : String) (v : Value) : Eval Unit := do
  let id ← ofExcept .usage (Store.definable env name)
  setSlot id name v

/-- The environment with one more frame, which binds the names to the values. -/
def extend (env : Env) (names : List String) (values : List Value) : Eval Env := do
  let frame ← ofExcept .eval (Frame.ofArguments names (values.map some))
  modifyGet fun s =>
    let (env, store) := s.store.push env frame
    (env, { s with store })

/-- Counts one more call that is under way. -/
def enter : Eval Unit :=
  modify fun s => { s with depth := s.depth + 1 }

/-- Counts one call less. -/
def leave : Eval Unit :=
  modify fun s => { s with depth := s.depth - 1 }

/-- Runs a computation one call deeper, and counts the call as over also when it fails. -/
def deeper (call : Eval α) : Eval α := do
  enter
  try call
  finally leave

/-- The state in which a computation ends, whether or not it fails. -/
def finalState (x : Eval α) (s : State) : State :=
  match x s with
  | .ok _ s => s
  | .error _ s => s

/-- After a computation that ends in a value the next one runs in the state that it leaves. -/
theorem bind_of_ok {x : Eval α} {s t : State} {a : α} (h : x s = .ok a t) (f : α → Eval β) :
    (x >>= f) s = f a t := by
  change EStateM.bind x f s = f a t
  rw [EStateM.bind, h]

/-- A failure is the end. -/
theorem bind_of_error {x : Eval α} {s t : State} {failure : Failure} (h : x s = .error failure t)
    (f : α → Eval β) : (x >>= f) s = .error failure t := by
  change EStateM.bind x f s = .error failure t
  rw [EStateM.bind, h]

theorem finalState_of_ok {x : Eval α} {s t : State} {a : α} (h : x s = .ok a t) :
    x.finalState s = t := by
  rw [finalState, h]

theorem finalState_of_error {x : Eval α} {s t : State} {failure : Failure}
    (h : x s = .error failure t) : x.finalState s = t := by
  rw [finalState, h]

/-- What the counter does around a call, on both ways in which the call can end. -/
theorem deeper_apply (call : Eval α) (s : State) :
    deeper call s
      = match call { s with depth := s.depth + 1 } with
        | .ok a t => .ok a { t with depth := t.depth - 1 }
        | .error failure t => .error failure { t with depth := t.depth - 1 } := by
  change EStateM.map Prod.fst (tryFinally' call fun _ => leave) { s with depth := s.depth + 1 } = _
  unfold EStateM.map tryFinally'
  simp only [EStateM.instMonadFinally]
  cases call { s with depth := s.depth + 1 } <;> rfl

end Eval

end SmallLisp
