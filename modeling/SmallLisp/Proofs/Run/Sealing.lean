import SmallLisp.Session
import SmallLisp.Proofs.Discipline.Registry
import SmallLisp.Proofs.Environment.Sharing
import SmallLisp.Proofs.Run.Dispatch
import SmallLisp.Proofs.Run.Silent

/-!
# Which runs seal the registry

No run registers a form (`Proofs.Discipline.Registry`). Whether a run seals the registry is decided
by whether it starts an evaluation, and it does not matter how it ends or how many levels it has
left: an evaluation closes the registry first of all, also one that has no level to run in. So an
evaluation always seals it, a sequence or a program does if it is not empty, and an application does
just if it gets as far as the body of a procedure (`Machine.StartsEvaluation`).

`Eval.SealsIf p` says both of a computation: it registers nothing, and it seals the registry if `p`.
There is one rule for each construction. The rule for one computation after another has to know that
the second one is reached, unless the first one has sealed the registry already.
-/

namespace SmallLisp

/-! ### Computations that seal the registry -/

/-- However it ends, the computation registers no form, and after it the registry is sealed if it
was before or if `p`. -/
structure Eval.SealsIf {α : Type} (p : Prop) (x : Eval α) : Prop where
  handlers : ∀ s, (x.finalState s).registry.handlers = s.registry.handlers
  isSealed_iff : ∀ s, (x.finalState s).registry.isSealed = true ↔ s.registry.isSealed = true ∨ p

namespace Eval

variable {α β : Type} {p q : Prop}

theorem SealsIf.congr {x : Eval α} (h : x.SealsIf p) (hpq : p ↔ q) : x.SealsIf q where
  handlers := h.handlers
  isSealed_iff s := by rw [h.isSealed_iff, hpq]

/-- A computation that leaves the registry alone does not seal it. -/
theorem sealsIf_of_registry {x : Eval α} (h : ∀ s, (x.finalState s).registry = s.registry) :
    x.SealsIf False where
  handlers s := by rw [h]
  isSealed_iff s := by rw [h, or_false]

/-- **One computation after another.** The second one seals the registry if it is reached, and it is
reached if the first one always has a value. -/
theorem SealsIf.bind {x : Eval α} {f : α → Eval β} (hx : x.SealsIf p) (hf : ∀ a, (f a).SealsIf q)
    (hreached : q → p ∨ ∀ s, ∃ a t, x s = .ok a t) : (x >>= f).SealsIf (p ∨ q) where
  handlers s := by
    cases hrun : x s with
    | ok a t =>
      have hfirst := hx.handlers s
      rw [finalState_of_ok hrun] at hfirst
      rw [finalState, bind_of_ok hrun, ← finalState, (hf a).handlers, hfirst]
    -- the second part is not reached
    | error failure t =>
      have hfirst := hx.handlers s
      rw [finalState_of_error hrun] at hfirst
      rw [finalState_of_error (bind_of_error hrun f), hfirst]
  isSealed_iff s := by
    have hfirst := hx.isSealed_iff s
    cases hrun : x s with
    | ok a t =>
      rw [finalState_of_ok hrun] at hfirst
      rw [finalState, bind_of_ok hrun, ← finalState, (hf a).isSealed_iff, hfirst, or_assoc]
    | error failure t =>
      rw [finalState_of_error hrun] at hfirst
      rw [finalState_of_error (bind_of_error hrun f), hfirst]
      -- if reaching it would seal, then so does the first part, for it has failed and is not always
      -- a success
      have hp : q → p := by
        intro hq
        refine (hreached hq).resolve_right fun hvalue => ?_
        obtain ⟨a, t', hok⟩ := hvalue s
        rw [hrun] at hok
        cases hok
      rw [or_iff_left_of_imp hp]

theorem sealsIf_pure (a : α) : (pure a : Eval α).SealsIf False :=
  sealsIf_of_registry fun _ => rfl

theorem sealsIf_throw (failure : Failure) : (throw failure : Eval α).SealsIf False :=
  sealsIf_of_registry fun _ => rfl

theorem sealsIf_settle (v : Value) : (settle v).SealsIf False :=
  sealsIf_of_registry fun _ => rfl

theorem sealsIf_settleAll (vs : List Value) : (settleAll vs).SealsIf False :=
  sealsIf_of_registry fun _ => rfl

theorem sealsIf_emit (event : Event) : (emit event).SealsIf False :=
  sealsIf_of_registry fun _ => rfl

theorem sealsIf_define (env : Env) (name : String) (v : Value) :
    (define env name v).SealsIf False :=
  sealsIf_of_registry fun _ => by cases env <;> rfl

theorem sealsIf_extend (env : Env) (names : List String) (values : List Value) :
    (extend env names values).SealsIf False := by
  refine sealsIf_of_registry fun s => ?_
  by_cases hlength : names.length = values.length
  · rw [finalState_of_ok (extend_of_length hlength env s)]
  · rw [finalState_of_error (extend_of_length_ne hlength env s)]

/-- Closing the registry is all that matters to whether it is sealed in the end. -/
theorem SealsIf.of_closed {x : Eval α} (hhandlers : ∀ s, (x.finalState s).registry.handlers
      = s.registry.handlers) (hclosed : ∀ s, x s.closed = x s)
    (hkeeps : ∀ s : State, s.registry.isSealed = true → (x.finalState s).registry.isSealed = true) :
    x.SealsIf True where
  handlers := hhandlers
  isSealed_iff s := by
    have hfinal : x.finalState s = x.finalState s.closed := by rw [finalState, finalState, hclosed]
    rw [hfinal]
    exact iff_of_true (hkeeps s.closed rfl) (.inr trivial)

end Eval

namespace Machine

open Eval

variable {p : Prop}

theorem sealsIf_traced {call : Eval Value} (h : call.SealsIf p) (config : Config) (name : String)
    (arguments : List Value) : (traced config name arguments call).SealsIf p := by
  cases htracing : config.tracing with
  | false =>
    rw [traced, htracing]
    exact h
  | true =>
    -- writing the line and counting the depth leave the registry alone
    have hregistry : ∀ s, ((traced config name arguments call).finalState s).registry
        = (call.finalState (s.entering name arguments)).registry := by
      intro s
      rw [finalState_of_eq_carry (traced_eq htracing name arguments call s)]
      rfl
    refine ⟨fun s => ?_, fun s => ?_⟩
    · rw [hregistry, h.handlers]
      rfl
    · rw [hregistry, h.isSealed_iff]
      rfl

/-! ### Evaluations -/

theorem evaluate_closed (config : Config) (levels : Nat) (e : Value) (env : Env) (s : State) :
    (machine config levels).evaluate e env s.closed = (machine config levels).evaluate e env s := by
  cases levels <;> rfl

/-- **Every evaluation seals the registry**, even one that fails at once. -/
theorem sealsIf_evaluate (config : Config) (levels : Nat) (e : Value) (env : Env) :
    ((machine config levels).evaluate e env).SealsIf True :=
  .of_closed (fun s => ((Footprint.sealing _).leads_evaluate config levels e env s).handlers)
    (evaluate_closed config levels e env)
    fun s => ((Footprint.sealing _).leads_evaluate config levels e env s).rel

theorem sealsIf_evaluateSequence (config : Config) (levels : Nat) (env : Env) (es : List Value) :
    ((machine config levels).evaluateSequence env es).SealsIf (es ≠ []) := by
  induction es with
  | nil => exact (sealsIf_throw _).congr (iff_of_false id fun h => h rfl)
  | cons e es ih =>
    cases es with
    | nil => exact (sealsIf_evaluate config levels e env).congr (iff_of_true trivial nofun)
    | cons e' es =>
      have hbind := (sealsIf_evaluate config levels e env).bind (fun _ => ih) fun _ => .inl trivial
      exact hbind.congr (iff_of_true (.inl trivial) nofun)

/-! ### Applications -/

/-- With that many levels, applying the procedure to the arguments starts an evaluation: it takes as
many as there are and has a body, or it applies another procedure of which this is so. -/
inductive StartsEvaluation : Nat → Value → List Value → Prop where
  | body {levels : Nat} {name : Option String} {parameters : List String} {body : List Value}
      {env : Env} {self : Option Identity} {arguments : List Value} :
      parameters.length = arguments.length → body ≠ [] →
      StartsEvaluation (levels + 1) (.compound name parameters body env self) arguments
  | application {levels : Nat} {op : Operation} {self : Option Identity}
      {arguments inner : List Value} {procedure : Value} :
      op.perform arguments = .ok (.application procedure inner) →
      StartsEvaluation levels procedure inner →
      StartsEvaluation (levels + 1) (.primitive (.operation op) self) arguments

/-- The body of a procedure is reached if there are as many arguments as parameters. -/
theorem sealsIf_body (config : Config) (levels : Nat) (env : Env) (parameters : List String)
    (arguments body : List Value) :
    (do
      let inner ← extend env parameters arguments
      (machine config levels).evaluateSequence inner body).SealsIf
        (parameters.length = arguments.length ∧ body ≠ []) := by
  by_cases hlength : parameters.length = arguments.length
  · have hbind := (sealsIf_extend env parameters arguments).bind
      (fun inner => sealsIf_evaluateSequence config levels inner body)
      fun _ => .inr fun s => ⟨_, _, extend_of_length hlength env s⟩
    refine hbind.congr ?_
    rw [false_or, and_iff_right hlength]
  · -- the frame is refused, so nothing is evaluated
    have hrefused : ∀ s, (extend env parameters arguments >>= fun inner =>
        (machine config levels).evaluateSequence inner body) s
          = .error (.eval (.arityMismatch (.exactly parameters.length) arguments.length)) s :=
      fun s => bind_of_error (extend_of_length_ne hlength env s) _
    refine (sealsIf_of_registry fun s => ?_).congr (iff_of_false id fun h => hlength h.1)
    rw [finalState_of_error (hrefused s)]

theorem startsEvaluation_compound_iff {levels : Nat} {name : Option String}
    {parameters : List String} {body : List Value} {env : Env} {self : Option Identity}
    {arguments : List Value} :
    StartsEvaluation (levels + 1) (.compound name parameters body env self) arguments
      ↔ parameters.length = arguments.length ∧ body ≠ [] := by
  constructor
  · rintro (⟨hlength, hbody⟩ | _)
    exact ⟨hlength, hbody⟩
  · rintro ⟨hlength, hbody⟩
    exact .body hlength hbody

theorem startsEvaluation_operation_iff {levels : Nat} {op : Operation} {self : Option Identity}
    {arguments : List Value} :
    StartsEvaluation (levels + 1) (.primitive (.operation op) self) arguments
      ↔ ∃ procedure inner, op.perform arguments = .ok (.application procedure inner)
        ∧ StartsEvaluation levels procedure inner := by
  constructor
  · rintro (_ | ⟨hperform, hstarts⟩)
    exact ⟨_, _, hperform, hstarts⟩
  · rintro ⟨procedure, inner, hperform, hstarts⟩
    exact .application hperform hstarts

/-- An operation seals the registry if it answers with an application that does. -/
theorem sealsIf_operation {m : Machine} {starts : Value → List Value → Prop}
    (h : ∀ procedure arguments, (m.apply procedure arguments).SealsIf (starts procedure arguments))
    (op : Operation) (arguments : List Value) :
    (m.perform (.operation op) arguments).SealsIf
      (∃ procedure inner, op.perform arguments = .ok (.application procedure inner)
        ∧ starts procedure inner) := by
  rw [perform]
  cases op.perform arguments with
  | error fault => exact (sealsIf_throw _).congr (iff_of_false id nofun)
  | ok reply =>
    cases reply with
    | value v => exact (sealsIf_settle v).congr (iff_of_false id nofun)
    | output text =>
      have hbind := (sealsIf_emit (.output text)).bind (fun _ => sealsIf_pure Value.ok) False.elim
      exact hbind.congr (iff_of_false (fun h => h.elim id id) nofun)
    -- only an operation that asks for an application can start an evaluation
    | application procedure inner =>
      refine (h procedure inner).congr ⟨fun hstarts => ⟨_, _, rfl, hstarts⟩, ?_⟩
      rintro ⟨_, _, heq, hstarts⟩
      cases heq
      exact hstarts

/-- **An application seals the registry just if it starts an evaluation.** -/
theorem sealsIf_apply (config : Config) (levels : Nat) (procedure : Value)
    (arguments : List Value) :
    ((machine config levels).apply procedure arguments).SealsIf
      (StartsEvaluation levels procedure arguments) := by
  -- the operations hand their application on to the level below
  induction levels generalizing procedure arguments with
  | zero => exact (sealsIf_throw _).congr (iff_of_false id nofun)
  | succ levels ih =>
    rw [apply_machine_succ]
    cases procedure with
    | primitive action self =>
      refine sealsIf_traced ?_ config _ _
      cases action with
      | record name =>
        have hnever : ¬ StartsEvaluation (levels + 1) (.primitive (.record name) self) arguments :=
          nofun
        rw [perform]
        exact (sealsIf_settle _).congr (iff_of_false id hnever)
      | operation op =>
        exact (sealsIf_operation ih op arguments).congr startsEvaluation_operation_iff.symm
    | compound name parameters body env self =>
      refine sealsIf_traced ?_ config _ _
      exact (sealsIf_body config levels env parameters arguments body).congr
        startsEvaluation_compound_iff.symm
    | _ => exact (sealsIf_throw _).congr (iff_of_false id nofun)

end Machine

/-! ### Programs -/

namespace Session

open Eval Machine

/-- A program seals the registry if it has an expression. -/
theorem sealsIf_program (config : Config) (levels : Nat) (env : Env) (last : Option Value)
    (es : List Value) :
    (program (SmallLisp.machine config levels) env last es).SealsIf (es ≠ []) := by
  induction es generalizing last with
  | nil => exact (sealsIf_pure last).congr (iff_of_false id fun h => h rfl)
  | cons e es ih =>
    -- the first expression is evaluated whatever it is, and that seals
    have hevaluated : ∀ settled,
        ((SmallLisp.machine config levels).evaluate settled env >>= fun v =>
          program (SmallLisp.machine config levels) env (some v) es).SealsIf True := by
      intro settled
      have hbind := (sealsIf_evaluate config levels settled env).bind (fun v => ih (some v))
        fun _ => .inl trivial
      exact hbind.congr (iff_of_true (.inl trivial) trivial)
    have hbind := (sealsIf_settle e).bind hevaluated fun _ => .inr fun s => ⟨_, _, rfl⟩
    exact hbind.congr (iff_of_true (.inr trivial) nofun)

/-- Building a global environment does not seal the registry. -/
theorem sealsIf_globalEnvironment : globalEnvironment.SealsIf False := by
  -- the frame of the primitives, then two definitions: nothing is evaluated
  have hconstants : ∀ global, (do
      Eval.define global "true" (.boolean true)
      Eval.define global "false" (.boolean false)
      pure global).SealsIf False := by
    intro global
    have hsecond := (sealsIf_define global "false" (.boolean false)).bind
      (fun _ => sealsIf_pure global) False.elim
    have hfirst := (sealsIf_define global "true" (.boolean true)).bind (fun _ => hsecond) (by simp)
    exact hfirst.congr (by simp)
  have hextended := fun primitives =>
    (sealsIf_extend [] (Operation.all.map Operation.name) primitives).bind hconstants False.elim
  have hbind :=
    (sealsIf_settleAll (Operation.all.map fun op => .primitive (.operation op) none)).bind
    hextended (by simp)
  exact hbind.congr (by simp)

end Session

end SmallLisp
