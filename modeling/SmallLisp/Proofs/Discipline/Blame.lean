import SmallLisp.Proofs.Discipline.Basic
import SmallLisp.Proofs.Discipline.Shape

/-!
# Which call raises a failure

A machine is asked to evaluate and to apply, and most failures of such a `Call` are those of calls
further inside. `Discipline.Raises` lists the others, which a call raises itself, with what has to
be the case in the state in which it does: a name is bound in no frame, a form has the wrong shape,
a procedure is none. That these are all is part of `Proofs.Discipline.Machine`.
-/

namespace SmallLisp

/-- Something that a machine is asked to do. -/
inductive Call where
  | evaluation (e : Value) (env : Env)
  | application (procedure : Value) (arguments : List Value)

/-- **The failures that a call raises itself**, in the state in which it ends. Under a strict
discipline procedures are no expressions and have a body. What the forms of an embedding program do
is not looked into. -/
inductive Discipline.Raises (D : Discipline) : Call → State → Failure → Prop where
  /-- No frame has a value for the symbol. -/
  | unbound {name : String} {env : Env} {s : State} : s.store.find env name = none →
      Raises D (.evaluation (.symbol name) env) s (.eval (.unboundVariable name))
  /-- No frame binds the name that is assigned to. -/
  | unassignable {tag name : String} {e : Value} {self : Option Identity} {env : Env} {s : State} :
      s.registry.get? tag = some .assign → s.store.resolve env name = none →
      Raises D (.evaluation (.list [.symbol tag, .symbol name, e] self) env) s
        (.eval (.unboundVariable name))
  | misshapen {elements : List Value} {self : Option Identity} {env : Env} {s : State}
      {fault : SyntaxFault} : fault.isShape = true →
      Raises D (.evaluation (.list elements self) env) s (.malformed fault)
  | emptyList {self : Option Identity} {env : Env} {s : State} :
      Raises D (.evaluation (.list [] self) env) s
        (.eval (.unknownExpression (Value.list [] self).write))
  | noExpression {e : Value} {env : Env} {s : State} : ¬ D.strict →
      Raises D (.evaluation e env) s (.eval (.unknownExpression e.write))
  | hosted {tag : String} {form : HostForm} {operands : List Value} {self : Option Identity}
      {env : Env} {s : State} {failure : Failure} : s.registry.get? tag = some (.host form) →
      Raises D (.evaluation (.list (.symbol tag :: operands) self) env) s failure
  | notAProcedure {procedure : Value} {arguments : List Value} {s : State} :
      procedure.isProcedure = false →
      Raises D (.application procedure arguments) s (.eval (.notAProcedure procedure.write))
  | arity {name : Option String} {parameters : List String} {body arguments : List Value}
      {env : Env} {self : Option Identity} {s : State} :
      parameters.length ≠ arguments.length →
      Raises D (.application (.compound name parameters body env self) arguments) s
        (.eval (.arityMismatch (.exactly parameters.length) arguments.length))
  | emptyBody {procedure : Value} {arguments : List Value} {s : State} : ¬ D.strict →
      Raises D (.application procedure arguments) s (.malformed .emptySequence)
  | refused {op : Operation} {self : Option Identity} {arguments : List Value} {s : State}
      {fault : EvalFault} : op.perform arguments = .error fault →
      Raises D (.application (.primitive (.operation op) self) arguments) s (.eval fault)
  | exhausted {call : Call} {s : State} : Raises D call s .exhausted

/-- How many calls are under way plays no part. -/
theorem Discipline.Raises.with_depth {D : Discipline} {call : Call} {s : State} {failure : Failure}
    (h : D.Raises call s failure) (depth : Nat) : D.Raises call { s with depth } failure := by
  cases h with
  | unbound hfind => exact .unbound hfind
  | unassignable htag hresolve => exact .unassignable htag hresolve
  | misshapen hshape => exact .misshapen hshape
  | emptyList => exact .emptyList
  | noExpression hfree => exact .noExpression hfree
  | hosted htag => exact .hosted htag
  | notAProcedure hprocedure => exact .notAProcedure hprocedure
  | arity hlength => exact .arity hlength
  | emptyBody hfree => exact .emptyBody hfree
  | refused hperform => exact .refused hperform
  | exhausted => exact .exhausted

end SmallLisp
