import SmallLisp.Eval.Machine

/-!
# Which rule evaluates a form

A list whose tag is registered is evaluated by the form that it is registered for, and one whose tag
is that of a derived form by what it stands for, whatever the environment binds the tag to. Any
other list whose tag names a procedure is an application. In all cases the registry is closed first.
-/

namespace SmallLisp

/-- The state in which no form can be registered any more. -/
def State.closed (s : State) : State :=
  { s with registry := s.registry.close }

/-- Only what the first computation does in this state matters to what follows. -/
theorem Eval.bind_congr_of_eq {α β : Type} {x y : Eval α} {s : State} (h : x s = y s)
    (f : α → Eval β) : (x >>= f) s = (y >>= f) s := by
  change EStateM.bind x f s = EStateM.bind y f s
  rw [EStateM.bind, EStateM.bind, h]

theorem State.closed_of_isSealed {s : State} (h : s.registry.isSealed = true) : s.closed = s := by
  have hregistry : s.registry.close = s.registry := by rw [Registry.close, ← h]
  rw [State.closed, hregistry]

namespace Machine

open Value Eval

/-- A special form is evaluated by what its tag is registered for. -/
theorem evaluateStep_special {s : State} {tag : String} {form : SpecialForm}
    (h : s.registry.get? tag = some form) (config : Config) (m : Machine) (operands : List Value)
    (self : Option Identity) (env : Env) :
    evaluateStep config m (list (symbol tag :: operands) self) env s
      = m.special env form (symbol tag :: operands) s.closed := by
  have hget : s.closed.registry.get? tag = some form := h
  have hrule : ruleOf config s.closed (symbol tag) env = .special form := by
    rw [ruleOf, hget]
  have hlook : (get : Eval State) s.closed = .ok s.closed s.closed := rfl
  show evaluateList config m (symbol tag) operands env s.closed = _
  rw [evaluateList, bind_of_ok hlook, hrule]

/-- A registered form, under a sealed registry. -/
theorem evaluate_special {config : Config} {env : Env} {s : State}
    (hsealed : s.registry.isSealed = true) {tag : String} {form : SpecialForm}
    (h : s.registry.get? tag = some form) (levels : Nat) (operands : List Value)
    (self : Option Identity) :
    (machine config (levels + 1)).evaluate (list (symbol tag :: operands) self) env s
      = (machine config levels).special env form (symbol tag :: operands) s := by
  rw [evaluate_machine_succ, evaluateStep_special h, State.closed_of_isSealed hsealed]

/-- A list that begins with a list is the application of what that one evaluates to. -/
theorem evaluateStep_application (config : Config) (m : Machine) (elements operands : List Value)
    (first self : Option Identity) (env : Env) (s : State) :
    evaluateStep config m (list (list elements first :: operands) self) env s
      = (m.evaluate (list elements first) env >>= fun procedure =>
          m.evaluateEach env operands >>= m.apply procedure) s.closed :=
  rfl

/-- A derived form is checked as a whole, and then what it stands for is evaluated. -/
theorem evaluateStep_derived {config : Config} {s : State} {tag : String} {form : Derived}
    (hregistry : s.registry.get? tag = none) (hform : Derived.ofTag? config.derived tag = some form)
    (m : Machine) (operands : List Value) (self : Option Identity) (env : Env) :
    evaluateStep config m (list (symbol tag :: operands) self) env s
      = match form.desugar (symbol tag :: operands) with
        | .ok plain => m.evaluate plain env s.closed
        | .error fault => .error (.malformed fault) s.closed := by
  have hget : s.closed.registry.get? tag = none := hregistry
  -- no special form has the tag, so the derived forms are asked next
  have hrule : ruleOf config s.closed (symbol tag) env = .derived form := by
    simp only [ruleOf, hget, hform]
  have hlook : (get : Eval State) s.closed = .ok s.closed s.closed := rfl
  show evaluateList config m (symbol tag) operands env s.closed = _
  rw [evaluateList, bind_of_ok hlook, hrule]
  change (ofExcept .malformed (form.desugar (symbol tag :: operands))
    >>= fun plain => m.evaluate plain env) s.closed = _
  cases form.desugar (symbol tag :: operands) with
  | ok plain => rfl
  | error fault => rfl

/-- A list whose tag means nothing but a procedure is the application of that one. -/
theorem evaluateStep_call {config : Config} {s : State} {tag : String} {procedure : Value}
    {env : Env} (hregistry : s.registry.get? tag = none)
    (hderived : Derived.ofTag? config.derived tag = none)
    (hfind : s.store.find env tag = some procedure) (hprocedure : procedure.isProcedure = true)
    (m : Machine) (operands : List Value) (self : Option Identity) :
    evaluateStep config m (list (symbol tag :: operands) self) env s
      = (m.evaluate (symbol tag) env >>= fun procedure =>
          m.evaluateEach env operands >>= m.apply procedure) s.closed := by
  have hget : s.closed.registry.get? tag = none := hregistry
  have hsees : s.closed.store.find env tag = some procedure := hfind
  have hrule : ruleOf config s.closed (symbol tag) env = .application := by
    simp only [ruleOf, hget, hderived, hsees]
    -- a transformer is no procedure
    cases procedure with
    | transformer => cases hprocedure
    | _ => rfl
  have hlook : (get : Eval State) s.closed = .ok s.closed s.closed := rfl
  show evaluateList config m (symbol tag) operands env s.closed = _
  rw [evaluateList, bind_of_ok hlook, hrule]

end Machine

end SmallLisp
