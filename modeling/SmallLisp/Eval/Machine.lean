import SmallLisp.Eval.State
import SmallLisp.Operation
import SmallLisp.Derived
import SmallLisp.Rules.Transformer

/-!
# The evaluator

A `Machine` evaluates expressions and applies procedures. `machine config n` does so with at most
`n` levels of nesting: each level is one step, written once and without recursion, over the machine
that has one level less, and the machine without levels answers that the recursion is exhausted. So
whatever holds of every step holds of every machine.

An expression is evaluated by the first of these rules that fits:

* a number, a string or a boolean is its own value;
* a symbol is looked up;
* a list with a registered tag is a special form;
* a list with the tag of a derived form is desugared and evaluated again;
* a list whose tag is bound to a transformer is expanded and evaluated again;
* any other list but the empty one is the application of its first element to the others.
-/

namespace SmallLisp

/-- What stays the same during an evaluation. -/
structure Config where
  /-- The derived forms that are desugared. -/
  derived : List Derived
  /-- Whether applications are recorded. -/
  tracing : Bool

/-- A way to evaluate expressions and to apply procedures. -/
structure Machine where
  evaluate : Value → Env → Eval Value
  apply : Value → List Value → Eval Value

namespace Machine

/-- Evaluates expressions from left to right. -/
def evaluateEach (m : Machine) (env : Env) : List Value → Eval (List Value)
  | [] => pure []
  | e :: es => do
    let v ← m.evaluate e env
    let vs ← m.evaluateEach env es
    pure (v :: vs)

/-- Evaluates expressions for their effect and the last one for its value. -/
def evaluateSequence (m : Machine) (env : Env) : List Value → Eval Value
  | [] => Eval.malformed .emptySequence
  | [e] => m.evaluate e env
  | e :: es => do
    let _ ← m.evaluate e env
    m.evaluateSequence env es

/-! ### Special forms

Each takes the elements of the form, its tag included. -/

/-- The names of a list of parameters, which must be different symbols; `seen` holds those before
it. -/
def parameterNames (seen : List String) : List Value → Except SyntaxFault (List String)
  | [] => .ok []
  | .symbol name :: rest =>
    if seen.contains name then .error (.duplicateParameter name)
    else (parameterNames (name :: seen) rest).map (name :: ·)
  | other :: _ => .error (.parameterName other.write)

/-- A new procedure that closes over an environment. -/
def close (name : Option String) (parameters body : List Value) (env : Env) : Eval Value := do
  let names ← Eval.ofExcept .malformed (parameterNames [] parameters)
  Eval.settle (.compound name names body env none)

/-- `(quote datum)` -/
def quote : List Value → Eval Value
  | [_, datum] => pure datum
  | _ => Eval.malformed .quoteArity

/-- `(set! name value)` -/
def assign (m : Machine) (env : Env) : List Value → Eval Value
  | [_, .symbol name, e] => do
    let v ← m.evaluate e env
    Eval.assign env name v
    pure .ok
  | _ => Eval.malformed .assignmentShape

/-- `(define name value)` or `(define (name parameter …) body …)` -/
def define (m : Machine) (env : Env) : List Value → Eval Value
  | [_, .symbol name, e] => do
    let v ← m.evaluate e env
    Eval.define env name v
    pure .ok
  -- the name is right, so it is the number of operands that is wrong
  | _ :: .symbol name :: _ => Eval.malformed (.definitionArity name)
  | _ :: .list (.symbol name :: parameters) _ :: e :: es => do
    let procedure ← close (some name) parameters (e :: es) env
    Eval.define env name procedure
    pure .ok
  | [_, .list (.symbol name :: _) _] => Eval.malformed (.missingBody name)
  | _ :: .list (other :: _) _ :: _ => Eval.malformed (.procedureName other.write)
  | _ => Eval.malformed .definitionShape

/-- `(if test consequent alternative)`; without an alternative it is false. -/
def conditional (m : Machine) (env : Env) : List Value → Eval Value
  | [_, test, consequent] => do
    if (← m.evaluate test env).isTruthy then m.evaluate consequent env else pure (.boolean false)
  | [_, test, consequent, alternative] => do
    if (← m.evaluate test env).isTruthy then m.evaluate consequent env
    else m.evaluate alternative env
  | _ => Eval.malformed .conditionalShape

/-- `(lambda (parameter …) body …)` -/
def lambda (env : Env) : List Value → Eval Value
  | _ :: .list parameters _ :: e :: es => close none parameters (e :: es) env
  | _ => Eval.malformed .lambdaShape

/-- `(begin expression …)` -/
def sequence (m : Machine) (env : Env) : List Value → Eval Value
  | _ :: e :: es => m.evaluateSequence env (e :: es)
  | _ => Eval.malformed .emptyBegin

/-- The value of the first operand that is false, else of the last one; true without operands. -/
def conjunction (m : Machine) (env : Env) (last : Value) : List Value → Eval Value
  | [] => pure last
  | e :: es => do
    let v ← m.evaluate e env
    if v.isTruthy then m.conjunction env v es else pure v

/-- The value of the first operand that is truthy, else false. -/
def disjunction (m : Machine) (env : Env) : List Value → Eval Value
  | [] => pure (.boolean false)
  | e :: es => do
    let v ← m.evaluate e env
    if v.isTruthy then pure v else m.disjunction env es

/-- `(define-syntax name (syntax-rules …))` -/
def defineTransformer (env : Env) : List Value → Eval Value
  | [_, .symbol name, rules] => do
    let transformer ← Eval.ofExcept .malformed (Transformer.make name rules env)
    let settled ← Eval.settle transformer
    Eval.define env name settled
    pure .ok
  | _ => Eval.malformed .transformerShape

/-- A value by its number. -/
def pick (values : List Value) (number : Nat) : Eval Value :=
  match values[number]? with
  | some v => pure v
  | none => Eval.fail .missingOperand

/-- Several values by their numbers. -/
def pickEach (values : List Value) : List Nat → Eval (List Value)
  | [] => pure []
  | number :: numbers => do
    let v ← pick values number
    let vs ← pickEach values numbers
    pure (v :: vs)

/-- A name by the number of the symbol. -/
def pickName (elements : List Value) (number : Nat) : Eval String :=
  match elements[number]? with
  | some (.symbol name) => pure name
  | _ => Eval.fail .missingOperand

/-- The list of the names visible in an environment. -/
def visibleNames (env : Env) : Eval Value := do
  let names := (← get).store.allNames env
  Eval.settle (.ofList (names.map .symbol))

/-- The forms of an embedding program, with the values that the handler has come by so far. -/
def host (m : Machine) (env : Env) (elements values : List Value) : HostForm → Eval Value
  | .answer value => pick values value
  | .refuse fault => Eval.fail fault
  | .branch value truthy falsy => do
    let v ← pick values value
    if v.isTruthy then m.host env elements values truthy else m.host env elements values falsy
  | .datum element next => do
    let v ← pick elements element
    m.host env elements (v :: values) next
  | .evaluate element next => do
    let e ← pick elements element
    let v ← m.evaluate e env
    m.host env elements (v :: values) next
  | .evaluateFrom element next => do
    let v ← m.evaluateSequence env (elements.drop element)
    m.host env elements (v :: values) next
  | .apply procedure arguments next => do
    let p ← pick values procedure
    let as ← pickEach values arguments
    let v ← m.apply p as
    m.host env elements (v :: values) next
  | .lookup name next => do
    let v ← Eval.lookup env name
    m.host env elements (v :: values) next
  | .define element value next => do
    let name ← pickName elements element
    let v ← pick values value
    Eval.define env name v
    m.host env elements (v :: values) next
  | .assign element value next => do
    let name ← pickName elements element
    let v ← pick values value
    Eval.assign env name v
    m.host env elements (v :: values) next
  | .list members next => do
    let vs ← pickEach values members
    let v ← Eval.settle (.ofList vs)
    m.host env elements (v :: values) next
  | .boolean b next => m.host env elements (.boolean b :: values) next
  | .string text next => m.host env elements (.string text :: values) next
  | .acknowledge next => m.host env elements (.ok :: values) next
  | .frameCount next => do
    let v ← Eval.settle (.num (Float.ofNat env.length))
    m.host env elements (v :: values) next
  | .visibleNames next => do
    let v ← visibleNames env
    m.host env elements (v :: values) next

/-- Evaluates a special form. -/
def special (m : Machine) (env : Env) (form : SpecialForm) (elements : List Value) : Eval Value :=
  match form with
  | .quote => quote elements
  | .assign => m.assign env elements
  | .define => m.define env elements
  | .conditional => m.conditional env elements
  | .lambda => lambda env elements
  | .sequence => m.sequence env elements
  | .conjunction => m.conjunction env (.boolean true) elements.tail
  | .disjunction => m.disjunction env elements.tail
  | .defineTransformer => defineTransformer env elements
  | .host form => m.host env elements [] form

/-! ### Applications -/

/-- The line that records an application at a depth: the name and the arguments in parentheses,
indented by two spaces for each call around it. -/
def traceLine (depth : Nat) (name : String) (arguments : List Value) : String :=
  let words := name.toList :: arguments.map (Value.spell .written)
  String.ofList ("[trace] ".toList ++ List.replicate (2 * depth) ' '
    ++ '(' :: (Value.spaced words ++ [')']))

/-- Records an application, if applications are recorded, and runs it one call deeper. -/
def traced (config : Config) (name : String) (arguments : List Value) (call : Eval Value) :
    Eval Value :=
  if config.tracing then do
    let depth := (← get).depth
    Eval.emit (.trace (traceLine depth name arguments))
    Eval.deeper call
  else call

/-- Performs the action of a primitive procedure. -/
def perform (m : Machine) (action : Action) (arguments : List Value) : Eval Value :=
  match action with
  | .operation op => do
    match ← Eval.ofExcept .eval (op.perform arguments) with
    | .value v => Eval.settle v
    | .output text => do
      Eval.emit (.output text)
      pure .ok
    | .application procedure arguments => m.apply procedure arguments
  | .record name => Eval.settle (.ofList (.symbol name :: arguments))

/-- One level of application over the machine below it. -/
def applyStep (config : Config) (m : Machine) (procedure : Value) (arguments : List Value) :
    Eval Value :=
  match procedure with
  | .primitive action _ => traced config action.name arguments (m.perform action arguments)
  | .compound name parameters body env _ =>
    traced config (name.getD "lambda") arguments do
      let inner ← Eval.extend env parameters arguments
      m.evaluateSequence inner body
  | other => Eval.fail (.notAProcedure other.write)

/-! ### Expressions -/

/-- The rule by which a list is evaluated. -/
inductive Rule where
  | special (form : SpecialForm)
  | derived (form : Derived)
  | expansion (name : String) (literals : List String) (clauses : List (Value × Value))
      (definition : Env)
  | application

/-- The rule for a list with the given first element. -/
def ruleOf (config : Config) (s : State) (head : Value) (env : Env) : Rule :=
  match head with
  | .symbol tag =>
    match s.registry.get? tag with
    | some form => .special form
    | none =>
      -- a binding does not hide a keyword, neither a special form nor a derived one
      match Derived.ofTag? config.derived tag with
      | some form => .derived form
      | none =>
        match s.store.find env tag with
        | some (.transformer name literals clauses definition _) =>
          .expansion name literals clauses definition
        | _ => .application
  | _ => .application

/-- The expansion of a form by a transformer, before it settles. -/
def expand (name : String) (literals : List String) (clauses : List (Value × Value))
    (definition : Env) (elements : List Value) (env : Env) : Eval Value := do
  let store := (← get).store
  Eval.ofExcept .malformed
    (Transformer.expand store name literals clauses definition elements env)

/-- How many elements one list of an expansion may have. A list of an expansion is made by one call
that is given all its elements as arguments, and this many of them fit on the stack of the host. -/
def lengthLimit : Nat := 120000

/-- Whether every new list of an expansion is within the limit. A transformer whose expansions use
themselves and double each time exceeds it after a few levels, when it has used few of those of a
session. -/
def withinLimits (expansion : Value) : Bool :=
  expansion.newLengths.all (Nat.ble · lengthLimit)

/-- Evaluates an expansion in place of its form. -/
def evaluateExpansion (m : Machine) (env : Env) (expansion : Value) : Eval Value :=
  if withinLimits expansion then do
    let settled ← Eval.settle expansion
    m.evaluate settled env
  else Eval.fail .recursionExhausted

/-- Evaluates a list, given by its first element and the others. -/
def evaluateList (config : Config) (m : Machine) (head : Value) (operands : List Value)
    (env : Env) : Eval Value := do
  match ruleOf config (← get) head env with
  | .special form => m.special env form (head :: operands)
  | .derived form => do
    let plain ← Eval.ofExcept .malformed (form.desugar (head :: operands))
    m.evaluate plain env
  | .expansion name literals clauses definition => do
    let expansion ← expand name literals clauses definition (head :: operands) env
    m.evaluateExpansion env expansion
  | .application => do
    -- the operator is evaluated before the operands, and whether it is a procedure is asked last
    let procedure ← m.evaluate head env
    let arguments ← m.evaluateEach env operands
    m.apply procedure arguments

/-- One level of evaluation over the machine below it. The first evaluation of all closes the
registry. -/
def evaluateStep (config : Config) (m : Machine) (e : Value) (env : Env) : Eval Value := do
  Eval.closeRegistry
  match e with
  | .symbol name => Eval.lookup env name
  | .list (head :: operands) _ => evaluateList config m head operands env
  | .number _ _ | .string _ | .boolean _ => pure e
  | other => Eval.fail (.unknownExpression other.write)

/-- The machine without levels. -/
def exhausted : Machine where
  evaluate _ _ := do
    Eval.closeRegistry
    Eval.fail .recursionExhausted
  apply _ _ := Eval.fail .recursionExhausted

end Machine

/-- The machine with the given number of levels. -/
def machine (config : Config) : Nat → Machine
  | 0 => Machine.exhausted
  | levels + 1 =>
    { evaluate := fun e env => Machine.evaluateStep config (machine config levels) e env
      apply := fun p arguments => Machine.applyStep config (machine config levels) p arguments }

@[simp] theorem machine_zero (config : Config) : machine config 0 = Machine.exhausted := rfl

@[simp] theorem evaluate_machine_succ (config : Config) (levels : Nat) (e : Value) (env : Env) :
    (machine config (levels + 1)).evaluate e env
      = Machine.evaluateStep config (machine config levels) e env := rfl

@[simp] theorem apply_machine_succ (config : Config) (levels : Nat) (procedure : Value)
    (arguments : List Value) :
    (machine config (levels + 1)).apply procedure arguments
      = Machine.applyStep config (machine config levels) procedure arguments := rfl

end SmallLisp
