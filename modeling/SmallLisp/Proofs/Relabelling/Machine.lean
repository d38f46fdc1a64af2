import SmallLisp.Proofs.Relabelling.Twin
import SmallLisp.Proofs.Run.Interruption

/-!
# Runs of relabelled expressions

Whatever the evaluator does with an expression, it does the like with the relabelled expression in
the relabelled state: nothing depends on which numbers objects have, and nothing but texts depends
on what a procedure was called when it was defined. There is one lemma for each form, over two
machines that are twins, and one for a level of application; from them all machines with as many
levels are twins, by induction on the levels (`Twinning.machines`).

The machine of the first run is interrupted where it would display a compound procedure at one of
the places that the twinning chooses. Everywhere else the texts at these places are the same.
-/

namespace SmallLisp

open Value

namespace Machine

/-- The rule with the forms in it relabelled. -/
def Rule.relabel (φ : Relabelling) : Rule → Rule
  | special form => special form
  | derived form => derived form
  | expansion name literals clauses definition =>
    expansion name literals (clauses.map (Transformer.relabelClause φ)) definition
  | application => application

/-- What becomes of an expression of a program: it settles and is evaluated. -/
def evaluateFresh (m : Machine) (env : Env) (e : Value) : Eval Value := do
  let settled ← Eval.settle e
  m.evaluate settled env

/-- Whether the application is to display a compound procedure, where the next text that is written
has one of these places. -/
def showsAt (places : Nat → Bool) (s : State) (procedure : Value) (arguments : List Value) : Bool :=
  match procedure with
  | .primitive (.operation .display) _ => anyShowsCompound arguments && places s.outputs.length
  | _ => false

/-- The machine that does not display a compound procedure at these places, but ends the
run there. -/
def concealing (places : Nat → Bool) (refusal : Failure) (config : Config) (levels : Nat) :
    Machine :=
  interruptedLevels (showsAt places) (fun _ => refusal) config levels

/-- Where there are no such places, nothing is concealed. -/
theorem concealing_of_no_places {places : Nat → Bool} (h : ∀ place, places place = false)
    (refusal : Failure) (config : Config) (levels : Nat) :
    concealing places refusal config levels = machine config levels := by
  refine interruptedLevels_of_never (fun s procedure arguments => ?_) levels
  unfold showsAt
  split
  · rw [h, Bool.and_false]
  · rfl

end Machine

namespace Twinning

/-- What the second machine does with relabelled things is what the first one does. -/
structure Machines (T : Twinning) (m m' : Machine) : Prop where
  evaluate : ∀ e env, T.Twins (relabel T.toRelabelling) (m.evaluate e env)
    (m'.evaluate (e.relabel T.toRelabelling) env)
  apply : ∀ procedure arguments, T.Twins (relabel T.toRelabelling) (m.apply procedure arguments)
    (m'.apply (procedure.relabel T.toRelabelling) (arguments.map (relabel T.toRelabelling)))

variable {T : Twinning} {m m' : Machine} {env : Env}

/-! ### Sequences of expressions -/

theorem Machines.evaluateEach (h : T.Machines m m') (es : List Value) :
    T.Twins (List.map (relabel T.toRelabelling)) (m.evaluateEach env es)
      (m'.evaluateEach env (es.map (relabel T.toRelabelling))) := by
  induction es with
  | nil => exact twins_pure T _ []
  | cons e es ih =>
    exact (h.evaluate e env).bind fun v => ih.bind fun vs => twins_pure T _ (v :: vs)

theorem Machines.evaluateSequence (h : T.Machines m m') (es : List Value) :
    T.Twins (relabel T.toRelabelling) (m.evaluateSequence env es)
      (m'.evaluateSequence env (es.map (relabel T.toRelabelling))) := by
  induction es with
  | nil => exact twins_malformed T _ _ _
  | cons e es ih =>
    cases es with
    | nil => exact h.evaluate e env
    | cons e' es => exact (h.evaluate e env).bind fun _ => ih

/-- One of two computations, by a value that is false or not. -/
theorem twins_ite {v : Value} {f : Value → Value} {x y x' y' : Eval Value} (hx : T.Twins f x x')
    (hy : T.Twins f y y') :
    T.Twins f (if v.isTruthy then x else y)
      (if (v.relabel T.toRelabelling).isTruthy then x' else y') := by
  rw [isTruthy_relabel]
  split
  · exact hx
  · exact hy

/-! ### Special forms -/

theorem parameterNames_relabel {φ : Relabelling} (seen : List String) (parameters : List Value) :
    Corresponds SyntaxFault.Alike id (Machine.parameterNames seen parameters)
      (Machine.parameterNames seen (parameters.map (relabel φ))) := by
  induction parameters generalizing seen with
  | nil => exact .ok []
  | cons parameter rest ih =>
    cases parameter with
    | symbol name =>
      rw [List.map_cons, relabel_symbol, Machine.parameterNames, Machine.parameterNames]
      -- the names are the same on both sides, so one is repeated on both or on neither
      split
      · exact .error trivial
      · exact (ih (name :: seen)).map fun _ => rfl
    | _ => exact .error trivial

theorem twins_close (T : Twinning) (name : Option String) (parameters body : List Value)
    (env : Env) :
    T.Twins (relabel T.toRelabelling) (Machine.close name parameters body env)
      (Machine.close name (parameters.map (relabel T.toRelabelling))
        (body.map (relabel T.toRelabelling)) env) := by
  refine (twins_ofExcept_alike (parameterNames_relabel [] parameters)).bind fun names => ?_
  -- the procedure is new, so it has its name on both sides
  have hsettle := T.twins_settle (.compound name names body env none)
  rw [relabel_compound] at hsettle
  exact hsettle

theorem twins_quote (T : Twinning) (elements : List Value) :
    T.Twins (relabel T.toRelabelling) (Machine.quote elements)
      (Machine.quote (elements.map (relabel T.toRelabelling))) := by
  match elements with
  | [_, datum] => exact twins_pure T _ datum
  | [] | [_] | _ :: _ :: _ :: _ => exact twins_malformed T _ _ _

theorem twins_lambda (T : Twinning) (env : Env) (elements : List Value) :
    T.Twins (relabel T.toRelabelling) (Machine.lambda env elements)
      (Machine.lambda env (elements.map (relabel T.toRelabelling))) := by
  match elements with
  | [] | [_] => exact twins_malformed T _ _ _
  | _ :: signature :: body =>
    cases signature with
    | list parameters self =>
      rw [List.map_cons, List.map_cons, relabel_list]
      cases body with
      | nil => exact twins_malformed T _ _ _
      | cons e es => exact twins_close T none parameters (e :: es) env
    | _ => exact twins_malformed T _ _ _

theorem twins_defineTransformer (T : Twinning) (env : Env) (elements : List Value) :
    T.Twins (relabel T.toRelabelling) (Machine.defineTransformer env elements)
      (Machine.defineTransformer env (elements.map (relabel T.toRelabelling))) := by
  match elements with
  | [] | [_] => exact twins_malformed T _ _ _
  | _ :: target :: operands =>
    cases target with
    | symbol name =>
      match operands with
      | [rules] =>
        refine (twins_ofExcept_alike (Transformer.make_relabel name rules env)).bind fun v => ?_
        refine (T.twins_settle v).bind fun settled => ?_
        exact (T.twins_define env name settled).bind fun _ => twins_pure T _ Value.ok
      | [] | _ :: _ :: _ => exact twins_malformed T _ _ _
    | _ => exact twins_malformed T _ _ _

theorem Machines.assign (h : T.Machines m m') (elements : List Value) :
    T.Twins (relabel T.toRelabelling) (m.assign env elements)
      (m'.assign env (elements.map (relabel T.toRelabelling))) := by
  match elements with
  | [] | [_] => exact twins_malformed T _ _ _
  | _ :: target :: operands =>
    cases target with
    | symbol name =>
      match operands with
      | [e] =>
        refine (h.evaluate e env).bind fun v => ?_
        exact (T.twins_assign env name v).bind fun _ => twins_pure T _ Value.ok
      | [] | _ :: _ :: _ => exact twins_malformed T _ _ _
    | _ => exact twins_malformed T _ _ _

theorem Machines.define (h : T.Machines m m') (elements : List Value) :
    T.Twins (relabel T.toRelabelling) (m.define env elements)
      (m'.define env (elements.map (relabel T.toRelabelling))) := by
  match elements with
  | [] | [_] => exact twins_malformed T _ _ _
  | _ :: target :: operands =>
    cases target with
    | symbol name =>
      match operands with
      | [e] =>
        refine (h.evaluate e env).bind fun v => ?_
        exact (T.twins_define env name v).bind fun _ => twins_pure T _ Value.ok
      | [] | _ :: _ :: _ => exact twins_malformed T _ _ _
    | list signature self =>
      rw [List.map_cons, List.map_cons, relabel_list]
      -- the short form needs a symbol at the head and something in the body
      match signature, operands with
      | .symbol name :: parameters, e :: es =>
        refine (T.twins_close (some name) parameters (e :: es) env).bind fun procedure => ?_
        exact (T.twins_define env name procedure).bind fun _ => twins_pure T _ Value.ok
      | .symbol _ :: _, [] | [], _ => exact twins_malformed T _ _ _
      | .list _ _ :: _, _ | .number _ _ :: _, _ | .string _ :: _, _ | .boolean _ :: _, _
      | .primitive _ _ :: _, _ | .compound _ _ _ _ _ :: _, _ | .transformer _ _ _ _ _ :: _, _ =>
        exact twins_malformed T _ _ _
    | _ => exact twins_malformed T _ _ _

theorem Machines.conditional (h : T.Machines m m') (elements : List Value) :
    T.Twins (relabel T.toRelabelling) (m.conditional env elements)
      (m'.conditional env (elements.map (relabel T.toRelabelling))) := by
  match elements with
  | [_, test, consequent] =>
    refine (h.evaluate test env).bind fun v => ?_
    exact twins_ite (h.evaluate consequent env) (twins_pure T _ (boolean false))
  | [_, test, consequent, alternative] =>
    refine (h.evaluate test env).bind fun v => ?_
    exact twins_ite (h.evaluate consequent env) (h.evaluate alternative env)
  | [] | [_] | [_, _] | _ :: _ :: _ :: _ :: _ :: _ => exact twins_malformed T _ _ _

theorem Machines.sequence (h : T.Machines m m') (elements : List Value) :
    T.Twins (relabel T.toRelabelling) (m.sequence env elements)
      (m'.sequence env (elements.map (relabel T.toRelabelling))) := by
  match elements with
  | _ :: e :: es => exact h.evaluateSequence (e :: es)
  | [] | [_] => exact twins_malformed T _ _ _

theorem Machines.conjunction (h : T.Machines m m') (last : Value) (es : List Value) :
    T.Twins (relabel T.toRelabelling) (m.conjunction env last es)
      (m'.conjunction env (last.relabel T.toRelabelling) (es.map (relabel T.toRelabelling))) := by
  induction es generalizing last with
  | nil => exact twins_pure T _ last
  | cons e es ih =>
    exact (h.evaluate e env).bind fun v => twins_ite (ih v) (twins_pure T _ v)

theorem Machines.disjunction (h : T.Machines m m') (es : List Value) :
    T.Twins (relabel T.toRelabelling) (m.disjunction env es)
      (m'.disjunction env (es.map (relabel T.toRelabelling))) := by
  induction es with
  | nil => exact twins_pure T _ (boolean false)
  | cons e es ih =>
    exact (h.evaluate e env).bind fun v => twins_ite (twins_pure T _ v) ih

theorem twins_pick (T : Twinning) (values : List Value) (number : Nat) :
    T.Twins (relabel T.toRelabelling) (Machine.pick values number)
      (Machine.pick (values.map (relabel T.toRelabelling)) number) := by
  rw [Machine.pick, Machine.pick, List.getElem?_map]
  cases values[number]? with
  | none => exact twins_throw T _ rfl
  | some v => exact twins_pure T _ v

theorem twins_pickEach (T : Twinning) (values : List Value) (numbers : List Nat) :
    T.Twins (List.map (relabel T.toRelabelling)) (Machine.pickEach values numbers)
      (Machine.pickEach (values.map (relabel T.toRelabelling)) numbers) := by
  induction numbers with
  | nil => exact twins_pure T _ []
  | cons number numbers ih =>
    exact (T.twins_pick values number).bind fun v => ih.bind fun vs => twins_pure T _ (v :: vs)

theorem twins_pickName (T : Twinning) (elements : List Value) (number : Nat) :
    T.Twins id (Machine.pickName elements number)
      (Machine.pickName (elements.map (relabel T.toRelabelling)) number) := by
  rw [Machine.pickName, Machine.pickName, List.getElem?_map]
  rcases elements[number]? with _ | e
  · exact twins_throw T _ rfl
  · cases e with
    | symbol name => exact twins_pure T _ name
    | _ => exact twins_throw T _ rfl

theorem twins_visibleNames (T : Twinning) (env : Env) :
    T.Twins (relabel T.toRelabelling) (Machine.visibleNames env) (Machine.visibleNames env) := by
  refine twins_get_bind fun s s' hmirrors => ?_
  have hnames : s'.store.allNames env = s.store.allNames env := by
    rw [hmirrors.store, Store.allNames_relabel]
  have hsettle := T.twins_settle (.ofList ((s.store.allNames env).map .symbol))
  rw [relabel_ofList, List.map_map] at hsettle
  rw [hnames]
  exact hsettle

/-- By induction on what the handler does, with the values that it has come by relabelled too. -/
theorem Machines.host (h : T.Machines m m') (elements values : List Value) (form : HostForm) :
    T.Twins (relabel T.toRelabelling) (m.host env elements values form)
      (m'.host env (elements.map (relabel T.toRelabelling))
        (values.map (relabel T.toRelabelling)) form) := by
  induction form generalizing values with
  | answer value => exact T.twins_pick values value
  | refuse fault => exact twins_throw T _ rfl
  | branch value truthy falsy ihtruthy ihfalsy =>
    exact (T.twins_pick values value).bind fun v => twins_ite (ihtruthy values) (ihfalsy values)
  | datum element next ih => exact (T.twins_pick elements element).bind fun v => ih (v :: values)
  | evaluate element next ih =>
    refine (T.twins_pick elements element).bind fun e => ?_
    exact (h.evaluate e env).bind fun v => ih (v :: values)
  | evaluateFrom element next ih =>
    -- the operands from one on are mapped one by one
    have hrest : T.Twins _ (m.evaluateSequence env (elements.drop element)) _ :=
      h.evaluateSequence (elements.drop element)
    rw [List.map_drop] at hrest
    exact hrest.bind fun v => ih (v :: values)
  | apply procedure arguments next ih =>
    refine (T.twins_pick values procedure).bind fun p => ?_
    refine (T.twins_pickEach values arguments).bind fun vs => ?_
    exact (h.apply p vs).bind fun v => ih (v :: values)
  | lookup name next ih => exact (T.twins_lookup env name).bind fun v => ih (v :: values)
  | define element value next ih =>
    refine (T.twins_pickName elements element).bind fun name => ?_
    refine (T.twins_pick values value).bind fun v => ?_
    exact (T.twins_define env name v).bind fun _ => ih (v :: values)
  | assign element value next ih =>
    refine (T.twins_pickName elements element).bind fun name => ?_
    refine (T.twins_pick values value).bind fun v => ?_
    exact (T.twins_assign env name v).bind fun _ => ih (v :: values)
  | list members next ih =>
    refine (T.twins_pickEach values members).bind fun vs => ?_
    have hsettle := T.twins_settle (.ofList vs)
    rw [relabel_ofList] at hsettle
    exact hsettle.bind fun v => ih (v :: values)
  | boolean b next ih => exact ih (.boolean b :: values)
  | string text next ih => exact ih (.string text :: values)
  | acknowledge next ih => exact ih (.ok :: values)
  | frameCount next ih =>
    exact (T.twins_settle (.num (Float.ofNat env.length))).bind fun v => ih (v :: values)
  | visibleNames next ih => exact (T.twins_visibleNames env).bind fun v => ih (v :: values)

theorem Machines.special (h : T.Machines m m') (form : SpecialForm) (elements : List Value) :
    T.Twins (relabel T.toRelabelling) (m.special env form elements)
      (m'.special env form (elements.map (relabel T.toRelabelling))) := by
  cases form with
  | quote => exact T.twins_quote elements
  | assign => exact h.assign elements
  | define => exact h.define elements
  | conditional => exact h.conditional elements
  | lambda => exact T.twins_lambda env elements
  | sequence => exact h.sequence elements
  | conjunction =>
    have hoperands : T.Twins _ (m.conjunction env (.boolean true) elements.tail) _ :=
      h.conjunction (.boolean true) elements.tail
    rw [List.map_tail] at hoperands
    exact hoperands
  | disjunction =>
    have hoperands : T.Twins _ (m.disjunction env elements.tail) _ := h.disjunction elements.tail
    rw [List.map_tail] at hoperands
    exact hoperands
  | defineTransformer => exact T.twins_defineTransformer env elements
  | host form => exact h.host elements [] form

/-! ### Lists -/

/-- A relabelled list is evaluated by the same rule. -/
theorem Mirrors.ruleOf {s s' : State} (h : T.Mirrors s s') (config : Config) (head : Value)
    (env : Env) :
    Machine.ruleOf config s' (head.relabel T.toRelabelling) env
      = (Machine.ruleOf config s head env).relabel T.toRelabelling := by
  cases head with
  | symbol tag =>
    rw [relabel_symbol, Machine.ruleOf, Machine.ruleOf, h.registry, h.store, Store.find_relabel]
    -- special forms come first, then derived forms, then transformers, on both sides
    cases s.registry.get? tag with
    | some form => rfl
    | none =>
      cases Derived.ofTag? config.derived tag with
      | some form => rfl
      | none =>
        cases s.store.find env tag with
        | none => rfl
        | some v =>
          cases v with
          | transformer name literals clauses definition self =>
            rw [Option.map_some, relabel_transformer]
            rfl
          | _ => rfl
  | _ => rfl

theorem twins_expand (T : Twinning) (name : String) (literals : List String)
    (clauses : List (Value × Value)) (definition : Env) (elements : List Value) (env : Env) :
    T.Twins (relabel T.toRelabelling)
      (Machine.expand name literals clauses definition elements env)
      (Machine.expand name literals (clauses.map (Transformer.relabelClause T.toRelabelling))
        definition (elements.map (relabel T.toRelabelling)) env) := by
  refine twins_get_bind fun s s' h => ?_
  have hagree : s'.store.agree definition env = s.store.agree definition env := by
    funext symbol
    rw [h.store, Store.agree_relabel]
  exact twins_ofExcept_alike (Transformer.expand_relabel hagree name literals clauses elements)

/-- A relabelled expansion is as long, so it is within the limits if the expansion is. -/
theorem withinLimits_relabel (φ : Relabelling) (expansion : Value) :
    Machine.withinLimits (expansion.relabel φ) = Machine.withinLimits expansion := by
  rw [Machine.withinLimits, newLengths_relabel]
  rfl

theorem Machines.evaluateExpansion (h : T.Machines m m') (expansion : Value) :
    T.Twins (relabel T.toRelabelling) (m.evaluateExpansion env expansion)
      (m'.evaluateExpansion env (expansion.relabel T.toRelabelling)) := by
  unfold Machine.evaluateExpansion
  rw [withinLimits_relabel]
  split
  · exact (T.twins_settle expansion).bind fun settled => h.evaluate settled env
  · exact twins_throw T _ rfl

theorem Machines.evaluateList (h : T.Machines m m') (config : Config) (head : Value)
    (operands : List Value) :
    T.Twins (relabel T.toRelabelling) (Machine.evaluateList config m head operands env)
      (Machine.evaluateList config m' (head.relabel T.toRelabelling)
        (operands.map (relabel T.toRelabelling)) env) := by
  refine twins_get_bind fun s s' hmirrors => ?_
  -- the rule depends on the head only where it is a symbol, and that is the same symbol
  rw [hmirrors.ruleOf]
  cases Machine.ruleOf config s head env with
  | special form => exact h.special form (head :: operands)
  | derived form =>
    refine (twins_ofExcept_alike (form.desugar_relabel (head :: operands))).bind fun plain => ?_
    exact h.evaluate plain env
  | expansion name literals clauses definition =>
    refine (T.twins_expand name literals clauses definition (head :: operands) env).bind ?_
    exact fun expansion => h.evaluateExpansion expansion
  | application =>
    refine (h.evaluate head env).bind fun procedure => ?_
    exact (h.evaluateEach operands).bind fun arguments => h.apply procedure arguments

/-! ### One level -/

theorem Machines.evaluateStep (h : T.Machines m m') (config : Config) (e : Value) (env : Env) :
    T.Twins (relabel T.toRelabelling) (Machine.evaluateStep config m e env)
      (Machine.evaluateStep config m' (e.relabel T.toRelabelling) env) := by
  refine T.twins_closeRegistry.bind fun _ => ?_
  match e with
  | .symbol name => exact T.twins_lookup env name
  | .list (head :: operands) _ =>
    rw [relabel_list]
    exact h.evaluateList config head operands
  | .list [] _ =>
    rw [relabel_list]
    exact twins_throw T _ rfl
  | .number x self => exact twins_pure T _ (number x self)
  | .string text => exact twins_pure T _ (string text)
  | .boolean b => exact twins_pure T _ (boolean b)
  -- a value that is no expression is refused with the same code
  | .primitive _ _ | .transformer _ _ _ _ _ => exact twins_throw T _ rfl
  | .compound _ _ _ _ _ =>
    rw [relabel_compound]
    exact twins_throw T _ rfl

theorem refuses_of_showsAt {s : State} {procedure : Value} {arguments : List Value} (T : Twinning)
    (h : Machine.showsAt T.places s procedure arguments = true) : T.Refuses T.refusal := by
  unfold Machine.showsAt at h
  split at h
  · exact ⟨rfl, _, (Bool.and_eq_true_iff.1 h).2⟩
  · cases h

/-- What is displayed is the same text at the chosen places, unless it shows a
compound procedure. -/
theorem twinsAt_display {s : State} (arguments : List Value) (self : Option Identity)
    (hshows :
      Machine.showsAt T.places s (.primitive (.operation .display) self) arguments = false) :
    T.TwinsAt (relabel T.toRelabelling) (m.perform (.operation .display) arguments)
      (m'.perform (.operation .display) (arguments.map (relabel T.toRelabelling))) s := by
  match arguments with
  | [v] =>
    -- where the first run goes on at a chosen place, it shows no compound procedure
    have htext : T.places s.outputs.length = true →
        (v.relabel T.toRelabelling).display = v.display := by
      intro hplace
      refine display_relabel ?_
      rw [Machine.showsAt, hplace, Bool.and_true] at hshows
      exact showsCompound_of_mem hshows List.mem_cons_self
    have hwrites : T.TwinsAt (relabel T.toRelabelling)
        (Eval.emit (.output v.display) >>= fun _ => pure Value.ok)
        (Eval.emit (.output (v.relabel T.toRelabelling).display) >>= fun _ => pure Value.ok) s :=
      (twinsAt_output htext).bind fun _ => twins_pure T _ Value.ok
    exact hwrites
  | [] | _ :: _ :: _ =>
    refine twins_throw T _ ?_ s
    rfl

theorem Machines.performAt (h : T.Machines m m') {s : State} (action : Action)
    (self : Option Identity) (arguments : List Value)
    (hshows : Machine.showsAt T.places s (.primitive action self) arguments = false) :
    T.TwinsAt (relabel T.toRelabelling) (m.perform action arguments)
      (m'.perform action (arguments.map (relabel T.toRelabelling))) s := by
  cases action with
  | record name =>
    have hsettle := T.twins_settle (.ofList (.symbol name :: arguments))
    rw [relabel_ofList] at hsettle
    exact hsettle s
  | operation op =>
    -- only `display` looks at how a value is written, which may show identities
    by_cases hdisplay : op = .display
    · subst hdisplay
      exact twinsAt_display arguments self hshows
    · have hreply := op.perform_relabel (φ := T.toRelabelling) arguments (absurd · hdisplay)
      refine Twins.bind (twins_ofExcept_sameCode hreply) (fun reply => ?_) s
      cases reply with
      | value v => exact T.twins_settle v
      | output text =>
        exact Twins.bind (fun s => twinsAt_output fun _ => rfl) fun _ => twins_pure T _ Value.ok
      | application procedure others => exact h.apply procedure others

/-- A level of application does the like with a relabelled procedure, except where it is stopped. -/
theorem Machines.applyStepAt (h : T.Machines m m') (config : Config) {s : State}
    (procedure : Value) (arguments : List Value)
    (hshows : Machine.showsAt T.places s procedure arguments = false) :
    T.TwinsAt (relabel T.toRelabelling) (Machine.applyStep config m procedure arguments)
      (Machine.applyStep config m' (procedure.relabel T.toRelabelling)
        (arguments.map (relabel T.toRelabelling))) s := by
  match procedure with
  | .primitive action self =>
    refine twinsAt_traced fun t ht => h.performAt action self arguments ?_
    -- the place of the next text is the same after the line of trace
    rw [← hshows]
    unfold Machine.showsAt
    rw [ht]
  | .compound name parameters body env self =>
    rw [relabel_compound]
    refine twinsAt_traced fun t _ => ?_
    exact (T.twins_extend env parameters arguments).bind (fun inner => h.evaluateSequence body) t
  | .list elements self =>
    rw [relabel_list]
    refine twins_throw T _ ?_ s
    rfl
  | .transformer _ _ _ _ _ | .number _ _ | .string _ | .boolean _ | .symbol _ =>
    exact twins_throw T _ rfl s

/-! ### Machines -/

/-- **All machines do the like with relabelled expressions in relabelled states.** -/
theorem machines (T : Twinning) (config : Config) (levels : Nat) :
    T.Machines (Machine.concealing T.places T.refusal config levels)
      (SmallLisp.machine config levels) := by
  -- level by level: what one level asks for is answered by the level below
  induction levels with
  | zero =>
    constructor
    · intro e env
      exact T.twins_closeRegistry.bind fun _ => twins_throw T _ rfl
    · intro procedure arguments
      exact twins_throw T _ rfl
  | succ levels ih =>
    constructor
    · exact ih.evaluateStep config
    · intro procedure arguments s
      cases hshows : Machine.showsAt T.places s procedure arguments with
      | true =>
        -- where a value would be shown, the concealing machine refuses, and nothing is compared
        -- from there on
        have hrefused : (Machine.concealing T.places T.refusal config (levels + 1)).apply procedure
            arguments s = .error T.refusal s := Machine.apply_interruptedLevels_of_stops hshows
        constructor
        · exact Nat.le_of_eq (congrArg State.nextIdentity (Eval.finalState_of_error hrefused)).symm
        · intro s' _ _ _
          rw [hrefused]
          exact .refused (T.refuses_of_showsAt hshows) s _
      | false =>
        have hstep : (Machine.concealing T.places T.refusal config (levels + 1)).apply procedure
              arguments s
            = Machine.applyStep config (Machine.concealing T.places T.refusal config levels)
              procedure arguments s := Machine.apply_interruptedLevels_of_not_stops hshows
        have hlike := ih.applyStepAt config procedure arguments hshows
        constructor
        · have hle := hlike.le
          rwa [Eval.finalState, ← hstep] at hle
        · intro s' hstart hmirrors hlimit
          rw [Eval.finalState, hstep] at hlimit
          rw [hstep]
          exact hlike.agree s' hstart hmirrors hlimit

/-- One expression of a program. -/
theorem twins_evaluateFresh (T : Twinning) (config : Config) (levels : Nat) (env : Env)
    (e : Value) :
    T.Twins (relabel T.toRelabelling)
      ((Machine.concealing T.places T.refusal config levels).evaluateFresh env e)
      ((machine config levels).evaluateFresh env (e.relabel T.toRelabelling)) :=
  (T.twins_settle e).bind fun settled => (T.machines config levels).evaluate settled env

end Twinning

end SmallLisp
