import SmallLisp.Operation
import SmallLisp.Proofs.Relabelling.Rules

/-!
# Operations on relabelled arguments

An operation makes of relabelled arguments the relabelled reply. It fails on the same arguments and
with the same code; only the message of `error` is made of the texts of its arguments, as is what
`display` writes. Those texts are the one way in which a name shows, so that `display` is asked to
show no compound procedure (`Operation.perform_relabel`).
-/

namespace SmallLisp

/-- The reply with the values in it relabelled. -/
def Reply.relabel (φ : Relabelling) : Reply → Reply
  | value v => value (v.relabel φ)
  | output text => output text
  | application procedure arguments =>
    application (procedure.relabel φ) (arguments.map (Value.relabel φ))

/-- The faults are catalogued under one number. -/
abbrev EvalFault.SameCode (fault fault' : EvalFault) : Prop :=
  fault.code = fault'.code

namespace Operation

open Value

variable {φ : Relabelling} {op : Operation}

/-- A computation whose other side is itself with the value replaced. -/
theorem corresponds_of_eq_map {α β : Type} {f : α → β} {x : Except EvalFault α}
    {y : Except EvalFault β} (h : y = x.map f) : Corresponds EvalFault.SameCode f x y := by
  rw [h]
  cases x with
  | ok a => exact .ok a
  | error fault => exact .error rfl

/-! ### Checks of the arguments -/

theorem exactlyOne_relabel {α β : Type} {f : α → β} {use : Value → Except EvalFault α}
    {use' : Value → Except EvalFault β} (arguments : List Value)
    (h : ∀ v ∈ arguments, Corresponds EvalFault.SameCode f (use v) (use' (v.relabel φ))) :
    Corresponds EvalFault.SameCode f (exactlyOne arguments use)
      (exactlyOne (arguments.map (relabel φ)) use') := by
  match arguments with
  | [v] => exact h v List.mem_cons_self
  | [] | _ :: _ :: _ => exact .error rfl

theorem exactlyTwo_relabel {α β : Type} {f : α → β} {use : Value → Value → Except EvalFault α}
    {use' : Value → Value → Except EvalFault β} (arguments : List Value)
    (h : ∀ v w, Corresponds EvalFault.SameCode f (use v w) (use' (v.relabel φ) (w.relabel φ))) :
    Corresponds EvalFault.SameCode f (exactlyTwo arguments use)
      (exactlyTwo (arguments.map (relabel φ)) use') := by
  match arguments with
  | [v, w] => exact h v w
  | [] | [_] | _ :: _ :: _ :: _ => exact .error rfl

theorem atLeastOne_relabel {α β : Type} {f : α → β} {use : Except EvalFault α}
    {use' : Except EvalFault β} (arguments : List Value)
    (h : Corresponds EvalFault.SameCode f use use') :
    Corresponds EvalFault.SameCode f (atLeastOne arguments use)
      (atLeastOne (arguments.map (relabel φ)) use') := by
  cases arguments with
  | nil => exact .error rfl
  | cons v vs => exact h

@[simp] theorem numbersOf_relabel (arguments : List Value) :
    op.numbersOf (arguments.map (relabel φ)) = op.numbersOf arguments := by
  induction arguments with
  | nil => rfl
  | cons v vs ih =>
    -- the number of an object is not the number that it stands for
    have hnumber : op.numberOf (v.relabel φ) = op.numberOf v := by cases v <;> rfl
    rw [List.map_cons, numbersOf, numbersOf, hnumber, ih]

theorem elementsOf_relabel (v : Value) :
    op.elementsOf (v.relabel φ) = (op.elementsOf v).map (List.map (relabel φ)) := by
  cases v with
  | list elements self =>
    rw [relabel_list]
    rfl
  | _ => rfl

theorem headOf_relabel (v : Value) :
    op.headOf (v.relabel φ)
      = (op.headOf v).map (Prod.map (relabel φ) (List.map (relabel φ))) := by
  rw [headOf, headOf, elementsOf_relabel]
  match op.elementsOf v with
  | .ok (_ :: _) | .ok [] | .error _ => rfl

/-! ### Replies -/

theorem test_relabel {holds : Value → Bool} (h : ∀ v, holds (v.relabel φ) = holds v)
    (arguments : List Value) :
    Corresponds EvalFault.SameCode (Reply.relabel φ) (test holds arguments)
      (test holds (arguments.map (relabel φ))) := by
  refine exactlyOne_relabel arguments fun v _ => ?_
  rw [h]
  exact .ok (Reply.value (.boolean (holds v)))

theorem joinNumbers_relabel (neutral : Float) (join : Float → Float → Float)
    (arguments : List Value) :
    Corresponds EvalFault.SameCode (Reply.relabel φ) (op.joinNumbers neutral join arguments)
      (op.joinNumbers neutral join (arguments.map (relabel φ))) := by
  rw [joinNumbers, joinNumbers, numbersOf_relabel]
  refine corresponds_of_eq_map ?_
  cases op.numbersOf arguments <;> rfl

theorem compare_relabel (related : Float → Float → Bool) (arguments : List Value) :
    Corresponds EvalFault.SameCode (Reply.relabel φ) (op.compare related arguments)
      (op.compare related (arguments.map (relabel φ))) := by
  refine atLeastOne_relabel arguments ?_
  rw [numbersOf_relabel]
  refine corresponds_of_eq_map ?_
  cases op.numbersOf arguments <;> rfl

theorem divide_relabel (arguments : List Value) :
    Corresponds EvalFault.SameCode (Reply.relabel φ) (divide.perform arguments)
      (divide.perform (arguments.map (relabel φ))) := by
  refine atLeastOne_relabel arguments ?_
  rw [numbersOf_relabel]
  refine corresponds_of_eq_map ?_
  cases divide.numbersOf arguments with
  | error fault => rfl
  | ok xs =>
    dsimp only
    cases quotient xs <;> rfl

theorem cons_relabel (arguments : List Value) :
    Corresponds EvalFault.SameCode (Reply.relabel φ) (cons.perform arguments)
      (cons.perform (arguments.map (relabel φ))) := by
  refine exactlyTwo_relabel arguments fun head tail => ?_
  refine corresponds_of_eq_map ?_
  -- onto a list, or together with anything else
  cases tail with
  | list elements self =>
    rw [relabel_list]
    show Except.ok (Reply.value (ofList _)) = .ok (.value ((ofList (head :: elements)).relabel φ))
    rw [relabel_ofList, List.map_cons]
  | _ =>
    show Except.ok (Reply.value (ofList _)) = .ok (.value ((ofList [head, _]).relabel φ))
    rw [relabel_ofList]
    rfl

/-- **What an operation makes of relabelled arguments** is the relabelled reply. -/
theorem perform_relabel (op : Operation) (arguments : List Value)
    (h : op = display → anyShowsCompound arguments = false) :
    Corresponds EvalFault.SameCode (Reply.relabel φ) (op.perform arguments)
      (op.perform (arguments.map (relabel φ))) := by
  cases op with
  | car =>
    refine exactlyOne_relabel arguments fun v _ => ?_
    exact (corresponds_of_eq_map (headOf_relabel v)).map fun _ => rfl
  | cdr =>
    refine exactlyOne_relabel arguments fun v _ => ?_
    refine (corresponds_of_eq_map (headOf_relabel v)).map fun p => ?_
    exact congrArg Reply.value (relabel_ofList p.2).symm
  | cons => exact cons_relabel arguments
  | list =>
    refine corresponds_of_eq_map ?_
    exact congrArg (Except.ok ∘ Reply.value) (relabel_ofList arguments).symm
  | isNull =>
    refine test_relabel (fun v => ?_) arguments
    cases v with
    | list elements _ => cases elements <;> rfl
    | _ => rfl
  | isPair =>
    refine test_relabel (fun v => ?_) arguments
    cases v with
    | list elements _ => cases elements <;> rfl
    | _ => rfl
  -- what a value is called by its type does not change
  | isNumber | isSymbol | isString =>
    refine test_relabel (fun v => ?_) arguments
    rw [typeName_relabel]
  | isProcedure => exact test_relabel isProcedure_relabel arguments
  | add | multiply => exact joinNumbers_relabel _ _ arguments
  | subtract =>
    refine atLeastOne_relabel arguments ?_
    rw [numbersOf_relabel]
    refine corresponds_of_eq_map ?_
    cases subtract.numbersOf arguments <;> rfl
  | divide => exact divide_relabel arguments
  | numberEqual | less | greater | lessEqual | greaterEqual => exact compare_relabel _ arguments
  | isIdentical =>
    refine exactlyTwo_relabel arguments fun v w => ?_
    rw [isIdentical_relabel]
    exact .ok (Reply.value (.boolean (v.isIdentical w)))
  | isAlike =>
    refine exactlyTwo_relabel arguments fun v w => ?_
    rw [isAlike_relabel]
    exact .ok (Reply.value (.boolean (v.isAlike w)))
  | display =>
    refine exactlyOne_relabel arguments fun v hv => ?_
    -- this is the only text with names in it that can change
    rw [display_relabel (showsCompound_of_mem (h rfl) hv)]
    exact .ok (Reply.output v.display)
  | newline =>
    match arguments with
    | [] => exact .ok (Reply.output "\n")
    | _ :: _ => exact .error rfl
  -- the message may show names, but it is no part of the code
  | error => exact atLeastOne_relabel arguments (.error rfl)
  | apply =>
    refine exactlyTwo_relabel arguments fun procedure v => ?_
    exact (corresponds_of_eq_map (elementsOf_relabel v)).map fun _ => rfl

end Operation

end SmallLisp
