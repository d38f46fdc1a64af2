import SmallLisp.Eval.Machine
import SmallLisp.Source.Read
import SmallLisp.Prelude

/-!
# Sessions

A session is a global environment in which programs run one after the other. What a program did
before it failed stays done; a program that cannot be read does nothing at all.

Every expression of a program settles just before it is evaluated. Running one text after another is
therefore the same as running both as one text.
-/

namespace SmallLisp

/-- The deepest nesting of evaluations that a session allows. -/
def nestingLimit : Nat := 6000

/-- A running interpreter. -/
structure Session where
  config : Config
  limit : Nat
  global : Env
  state : State

namespace Session

/-- Binds every operation to a primitive procedure in one new frame, and `true` and `false` after
them. -/
def globalEnvironment : Eval Env := do
  let primitives ← Eval.settleAll (Operation.all.map fun op => .primitive (.operation op) none)
  let global ← Eval.extend [] (Operation.all.map Operation.name) primitives
  Eval.define global "true" (.boolean true)
  Eval.define global "false" (.boolean false)
  pure global

/-- Evaluates the expressions of a program in order. The value is that of the last one, if there is
one. -/
def program (m : Machine) (env : Env) (last : Option Value) : List Value → Eval (Option Value)
  | [] => pure last
  | e :: es => do
    let settled ← Eval.settle e
    let v ← m.evaluate settled env
    program m env (some v) es

/-- The machine of a session. -/
def machine (s : Session) : Machine :=
  SmallLisp.machine s.config s.limit

/-- Runs a computation in a session. -/
def perform (s : Session) (x : Eval α) : Except Failure α × Session :=
  match x s.state with
  | .ok a state => (.ok a, { s with state })
  | .error failure state => (.error failure, { s with state })

/-- Reads a whole text and then evaluates its expressions. -/
def run (s : Session) (source : String) (file : Option String) :
    Except Failure (Option Value) × Session :=
  match Source.read source file with
  | .error failure => (.error failure, s)
  | .ok expressions => s.perform (program s.machine s.global none expressions)

/-- Evaluates expressions that a host provides, as a program. -/
def runProgram (s : Session) (expressions : List Value) :
    Except Failure (Option Value) × Session :=
  s.perform (program s.machine s.global none expressions)

/-- Evaluates one expression that a host provides. -/
def evaluate (s : Session) (e : Value) : Except Failure Value × Session :=
  s.perform do
    let settled ← Eval.settle e
    s.machine.evaluate settled s.global

/-- Evaluates a sequence of expressions that a host provides. -/
def evaluateSequence (s : Session) (es : List Value) : Except Failure Value × Session :=
  s.perform do
    let settled ← Eval.settleAll es
    s.machine.evaluateSequence s.global settled

/-- Applies a procedure to arguments, all of which a host provides. -/
def apply (s : Session) (procedure : Value) (arguments : List Value) :
    Except Failure Value × Session :=
  s.perform do
    let settled ← Eval.settle procedure
    let settledArguments ← Eval.settleAll arguments
    s.machine.apply settled settledArguments

/-- Expands a form once by the transformer that its first element is bound to. -/
def expand (s : Session) (form : Value) : Except Failure Value × Session :=
  s.perform do
    match form with
    | .list elements@(.symbol name :: _) _ =>
      match ← Eval.lookup s.global name with
      | .transformer name literals clauses definition _ => do
        let expansion ← Machine.expand name literals clauses definition elements s.global
        Eval.settle expansion
      | _ => Eval.fail .notATransformer
    | _ => Eval.fail .notATransformer

/-- Registers a special form. -/
def register (s : Session) (tag : String) (form : SpecialForm) : Except Failure Unit × Session :=
  s.perform (Eval.register tag form)

/-- The value of a name. -/
def lookup (s : Session) (name : String) : Except Failure Value :=
  (s.state.store.lookup s.global name).mapError .eval

/-- The names that programs see. -/
def names (s : Session) : List String :=
  s.state.store.allNames s.global

/-- The tags of the special forms. -/
def tags (s : Session) : List String :=
  s.state.registry.tags

/-- What was written since the session began or was last drained. -/
def events (s : Session) : List Event :=
  s.state.events.toList

/-- Forgets what was written. -/
def drain (s : Session) : Session :=
  { s with state := { s.state with events := #[] } }

/-- A session without the prelude that allows so many levels of nesting. -/
def bareAt (limit : Nat) (config : Config) (registry : Registry SpecialForm) :
    Except Failure Session :=
  match globalEnvironment (State.initial registry) with
  | .ok global state => .ok { config, limit, global, state }
  | .error failure _ => .error failure

/-- A session without the prelude. -/
def bare (config : Config) (registry : Registry SpecialForm) : Except Failure Session :=
  bareAt nestingLimit config registry

/-- The session after a text that has to run to its end. -/
def load (s : Session) (source : String) (file : Option String) : Except Failure Session :=
  match s.run source file with
  | (.ok _, s) => .ok s
  | (.error failure, _) => .error failure

/-- A session over the given registry that allows so many levels of nesting, with all derived forms
and with or without the prelude. -/
def startAt (limit : Nat) (registry : Registry SpecialForm) (tracing prelude : Bool) :
    Except Failure Session :=
  let bare := bareAt limit { derived := Derived.all, tracing } registry
  if prelude then bare >>= fun s => s.load Prelude.source Prelude.file else bare

/-- A session over the given registry, with all derived forms and with or without the prelude. -/
def start (registry : Registry SpecialForm) (tracing prelude : Bool) : Except Failure Session :=
  startAt nestingLimit registry tracing prelude

end Session

end SmallLisp
