import SmallLisp.Registry

/-!
# Special forms

The forms whose tag alone decides how they are evaluated, as data: the core forms of the language,
and those that an embedding program may add to them. `Eval.Machine` gives them their meaning.

The handler of a form that is added is a function of the form, the environment and the evaluator. It
is a program here, which can do what these three offer, in any order: evaluate operands, look names
up and write to them, apply procedures, and decide by whether a value is truthy what to do next. It
treats values as values of the language, so that it cannot see the identity of an object; it cannot
change anything but through the environment and the evaluator; and it comes to an end, unless an
evaluation or an application that it asks for does not.
-/

namespace SmallLisp

/-- Forms that an embedding program may register, each as what its handler does. The elements of the
form are numbered with its tag as 0. The values that the handler has come by are numbered with the
latest as 0; where a step has a `next`, its value is the latest one there. -/
inductive HostForm where
  /-- The value of the form is a value that the handler has. -/
  | answer (value : Nat)
  /-- The handler fails. -/
  | refuse (fault : EvalFault)
  /-- Goes on in one way if a value is truthy, and in another way if not. -/
  | branch (value : Nat) (truthy falsy : HostForm)
  /-- An element of the form as it stands. -/
  | datum (element : Nat) (next : HostForm)
  /-- Evaluates an element of the form. -/
  | evaluate (element : Nat) (next : HostForm)
  /-- Evaluates the elements from one on, and has the value of the last one. -/
  | evaluateFrom (element : Nat) (next : HostForm)
  /-- Applies a value to values. -/
  | apply (procedure : Nat) (arguments : List Nat) (next : HostForm)
  /-- What a name means where the form stands. -/
  | lookup (name : String) (next : HostForm)
  /-- Binds the name that is an element of the form, where the form stands. -/
  | define (element value : Nat) (next : HostForm)
  /-- Overwrites the nearest binding of the name that is an element of the form. -/
  | assign (element value : Nat) (next : HostForm)
  /-- A new list of values. -/
  | list (values : List Nat) (next : HostForm)
  | boolean (b : Bool) (next : HostForm)
  | string (text : String) (next : HostForm)
  /-- The symbol `ok`. -/
  | acknowledge (next : HostForm)
  /-- How many frames the environment has. -/
  | frameCount (next : HostForm)
  /-- The list of the names visible in the environment. -/
  | visibleNames (next : HostForm)
  deriving DecidableEq, Repr

namespace HostForm

/-- False if the first operand is truthy, else the value of the operands after it. -/
def skipping : HostForm :=
  evaluate 1 (branch 0 (boolean false (answer 0)) (evaluateFrom 2 (answer 0)))

/-- The first operand, evaluated once and passed twice to what `+` means where the form stands. -/
def doubling : HostForm :=
  evaluate 1 (lookup "+" (apply 0 [1, 1] (answer 0)))

/-- The form that an embedding program registers under a tag. -/
def ofTag (tag : String) : HostForm :=
  match tag with
  | "unless" => skipping
  | "twice" => doubling
  | "env-depth" => frameCount (answer 0)
  | "env-names" => visibleNames (answer 0)
  | _ => acknowledge (answer 0)

end HostForm

/-- The forms of a registry. -/
inductive SpecialForm where
  | quote
  | assign
  | define
  | conditional
  | lambda
  | sequence
  | conjunction
  | disjunction
  | defineTransformer
  | host (form : HostForm)
  deriving DecidableEq, Repr

/-- The core forms with their tags, in the order in which they are registered. -/
def SpecialForm.core : List (String × SpecialForm) :=
  [("quote", quote), ("set!", assign), ("define", define), ("if", conditional),
   ("lambda", lambda), ("begin", sequence), ("and", conjunction), ("or", disjunction),
   ("define-syntax", defineTransformer)]

/-- A registry of the core forms. -/
def SpecialForm.registry : Registry SpecialForm :=
  (Registry.empty.registerAll core).2

/-- The core tags differ, so none of them is refused. -/
theorem SpecialForm.tags_registry : registry.tags = core.map Prod.fst := by decide

end SmallLisp
