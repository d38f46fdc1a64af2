import SmallLisp.Proofs.Run.Silent
import SmallLisp.Session

/-!
# What a computation asks of its machine

Each level of evaluation is written over the machine that has one level less. By itself it does
nothing but silent steps and output; everything else it asks of that machine. `Machine.Asks` says
this of a computation over an arbitrary machine, so whatever is respected by silent steps, by
output, by what machines do and by doing one thing after the other holds of each level of evaluation
(`Machine.asks_evaluateStep`), and of whole programs (`Session.asks_program`). There is one lemma
for each form that asks for something. A level of application records the call around what it asks,
so that its parts are here and it is not.
-/

namespace SmallLisp

open Eval

/-- Apart from what it asks of its machine, the computation is silent or writes. -/
inductive Machine.Asks : {α : Type} → (Machine → Eval α) → Prop where
  | silent {α : Type} {x : Eval α} (h : x.IsSilent) : Asks fun _ => x
  | output (text : String) : Asks fun _ => emit (.output text)
  | evaluate (e : Value) (env : Env) : Asks fun m => m.evaluate e env
  | apply (procedure : Value) (arguments : List Value) : Asks fun m => m.apply procedure arguments
  | bind {α β : Type} {x : Machine → Eval α} {f : Machine → α → Eval β} (hx : Asks x)
      (hf : ∀ a, Asks fun m => f m a) : Asks fun m => x m >>= f m

namespace Machine

/-! ### Constructions -/

theorem asks_pure {α : Type} (a : α) : Asks fun _ => (pure a : Eval α) :=
  .silent (isSilent_pure a)

theorem asks_malformed {α : Type} (fault : SyntaxFault) :
    Asks fun _ => (malformed fault : Eval α) :=
  .silent (isSilent_malformed fault)

theorem asks_fail {α : Type} (fault : EvalFault) : Asks fun _ => (fail fault : Eval α) :=
  .silent (isSilent_fail fault)

theorem Asks.after {α β : Type} {x : Eval α} {f : Machine → α → Eval β} (hx : x.IsSilent)
    (hf : ∀ a, Asks fun m => f m a) : Asks fun m => x >>= f m :=
  .bind (.silent hx) hf

/-- Looking at the state, but not at the depth and the record. -/
theorem Asks.after_get {α : Type} {f : Machine → State → Eval α}
    (hsame : ∀ m s depth events, f m (s.under depth events) = f m s)
    (hf : ∀ s, Asks fun m => f m s) : Asks fun m => get >>= f m := by
  have hget : (get >>= fun s => pure (s.under 0 #[]) : Eval State).IsSilent :=
    isSilent_get_bind (fun _ _ _ => rfl) fun _ => isSilent_pure _
  -- the state that is looked at can be any with the same store and registry
  have hlook : (fun m => get >>= f m)
      = fun m => (get >>= fun s => pure (s.under 0 #[])) >>= f m := by
    funext m s
    show f m s s = f m (s.under 0 #[]) s
    rw [hsame]
  rw [hlook]
  exact .after hget hf

theorem asks_evaluateEach (env : Env) (es : List Value) :
    Asks fun m => m.evaluateEach env es := by
  induction es with
  | nil => exact asks_pure []
  | cons e es ih => exact .bind (.evaluate e env) fun v => .bind ih fun vs => asks_pure _

theorem asks_evaluateSequence (env : Env) (es : List Value) :
    Asks fun m => m.evaluateSequence env es := by
  induction es with
  | nil => exact asks_malformed _
  | cons e es ih =>
    cases es with
    | nil => exact .evaluate e env
    | cons e' es => exact .bind (.evaluate e env) fun _ => ih

/-! ### Special forms -/

variable {env : Env}

theorem asks_assign (elements : List Value) : Asks fun m => m.assign env elements := by
  unfold assign
  split
  · refine .bind (.evaluate _ env) fun v => ?_
    exact .after (isSilent_assign _ _ _) fun _ => asks_pure _
  · exact asks_malformed _

theorem asks_define (elements : List Value) : Asks fun m => m.define env elements := by
  unfold define
  split
  · refine .bind (.evaluate _ env) fun v => ?_
    exact .after (isSilent_define _ _ _) fun _ => asks_pure _
  · exact asks_malformed _
  -- a procedure is made without its body being evaluated
  · refine .after (isSilent_close _ _ _ _) fun procedure => ?_
    exact .after (isSilent_define _ _ _) fun _ => asks_pure _
  all_goals exact asks_malformed _

theorem asks_conditional (elements : List Value) : Asks fun m => m.conditional env elements := by
  unfold conditional
  split
  · refine .bind (.evaluate _ env) fun v => ?_
    split
    · exact .evaluate _ env
    · exact asks_pure _
  · refine .bind (.evaluate _ env) fun v => ?_
    split
    · exact .evaluate _ env
    · exact .evaluate _ env
  · exact asks_malformed _

theorem asks_sequence (elements : List Value) : Asks fun m => m.sequence env elements := by
  unfold sequence
  split
  · exact asks_evaluateSequence env _
  · exact asks_malformed _

theorem asks_conjunction (last : Value) (es : List Value) :
    Asks fun m => m.conjunction env last es := by
  induction es generalizing last with
  | nil => exact asks_pure last
  | cons e es ih =>
    refine .bind (.evaluate e env) fun v => ?_
    split
    · exact ih v
    · exact asks_pure v

theorem asks_disjunction (es : List Value) : Asks fun m => m.disjunction env es := by
  induction es with
  | nil => exact asks_pure _
  | cons e es ih =>
    refine .bind (.evaluate e env) fun v => ?_
    split
    · exact asks_pure v
    · exact ih

/-- By induction on what the handler does: only evaluations and applications are asked for. -/
theorem asks_host (elements values : List Value) (form : HostForm) :
    Asks fun m => m.host env elements values form := by
  -- each step of the handler is silent or asks for one evaluation or application
  induction form generalizing values with
  | answer value => exact .silent (isSilent_pick values value)
  | refuse fault => exact asks_fail fault
  | branch value truthy falsy ihtruthy ihfalsy =>
    refine .after (isSilent_pick values value) fun v => ?_
    split
    · exact ihtruthy values
    · exact ihfalsy values
  | datum element next ih => exact .after (isSilent_pick elements element) fun v => ih _
  | evaluate element next ih =>
    exact .after (isSilent_pick elements element) fun e => .bind (.evaluate e env) fun v => ih _
  | evaluateFrom element next ih => exact .bind (asks_evaluateSequence env _) fun v => ih _
  | apply procedure arguments next ih =>
    refine .after (isSilent_pick values procedure) fun p => ?_
    exact .after (isSilent_pickEach values arguments) fun vs => .bind (.apply p vs) fun v => ih _
  | lookup name next ih => exact .after (isSilent_lookup env name) fun v => ih _
  | define element value next ih =>
    refine .after (isSilent_pickName elements element) fun name => ?_
    refine .after (isSilent_pick values value) fun v => ?_
    exact .after (isSilent_define env name v) fun _ => ih _
  | assign element value next ih =>
    refine .after (isSilent_pickName elements element) fun name => ?_
    refine .after (isSilent_pick values value) fun v => ?_
    exact .after (isSilent_assign env name v) fun _ => ih _
  | list members next ih =>
    refine .after (isSilent_pickEach values members) fun vs => ?_
    exact .after (isSilent_settle _) fun v => ih _
  | boolean b next ih => exact ih _
  | string text next ih => exact ih _
  | acknowledge next ih => exact ih _
  | frameCount next ih => exact .after (isSilent_settle _) fun v => ih _
  | visibleNames next ih => exact .after (isSilent_visibleNames env) fun v => ih _

theorem asks_special (form : SpecialForm) (elements : List Value) :
    Asks fun m => m.special env form elements := by
  cases form with
  | quote => exact .silent (isSilent_quote elements)
  | assign => exact asks_assign elements
  | define => exact asks_define elements
  | conditional => exact asks_conditional elements
  | lambda => exact .silent (isSilent_lambda env elements)
  | sequence => exact asks_sequence elements
  | conjunction => exact asks_conjunction _ _
  | disjunction => exact asks_disjunction _
  | defineTransformer => exact .silent (isSilent_defineTransformer env elements)
  | host form => exact asks_host elements [] form

/-! ### One level -/

theorem asks_perform (action : Action) (arguments : List Value) :
    Asks fun m => m.perform action arguments := by
  cases action with
  | operation op =>
    refine .after (isSilent_ofExcept _ _) fun reply => ?_
    cases reply with
    | value v => exact .silent (isSilent_settle v)
    | output text => exact .bind (.output text) fun _ => asks_pure _
    | application procedure others => exact .apply procedure others
  | record name => exact .silent (isSilent_settle (.ofList (.symbol name :: arguments)))

/-- What a compound procedure does when it is applied. -/
theorem asks_body (env : Env) (parameters : List String) (arguments body : List Value) :
    Asks fun m => extend env parameters arguments >>= fun inner => m.evaluateSequence inner body :=
  .after (isSilent_extend env parameters arguments) fun inner => asks_evaluateSequence inner body

theorem asks_evaluateExpansion (expansion : Value) :
    Asks fun m => m.evaluateExpansion env expansion := by
  unfold evaluateExpansion
  split
  · exact .after (isSilent_settle _) fun settled => .evaluate settled env
  · exact asks_fail _

theorem asks_evaluateList (config : Config) (head : Value) (operands : List Value) :
    Asks fun m => evaluateList config m head operands env := by
  refine .after_get (fun _ _ _ _ => rfl) fun s => ?_
  split
  · exact asks_special _ _
  · exact .after (isSilent_ofExcept _ _) fun plain => .evaluate plain env
  · exact .after (isSilent_expand _ _ _ _ _ _) fun expansion => asks_evaluateExpansion expansion
  -- an application: the head, then the operands, then the call
  · refine .bind (.evaluate head env) fun procedure => ?_
    exact .bind (asks_evaluateEach env operands) fun arguments => .apply procedure arguments

/-- A level of evaluation asks the machine below it. -/
theorem asks_evaluateStep (config : Config) (e : Value) (env : Env) :
    Asks fun m => evaluateStep config m e env := by
  refine .after isSilent_closeRegistry fun _ => ?_
  split
  · exact .silent (isSilent_lookup _ _)
  · exact asks_evaluateList config _ _
  · exact asks_pure _
  · exact asks_pure _
  · exact asks_pure _
  · exact asks_fail _

/-- Of the configuration a level of evaluation looks at nothing but the derived forms. -/
theorem evaluateStep_eq_of_derived {config config' : Config}
    (h : config.derived = config'.derived) : evaluateStep config = evaluateStep config' := by
  unfold evaluateStep evaluateList ruleOf
  rw [h]

end Machine

theorem Session.asks_program (env : Env) (last : Option Value) (es : List Value) :
    Machine.Asks fun m => Session.program m env last es := by
  induction es generalizing last with
  | nil => exact Machine.asks_pure last
  | cons e es ih =>
    refine .after (isSilent_settle e) fun settled => ?_
    exact .bind (.evaluate settled env) fun v => ih (some v)

end SmallLisp
