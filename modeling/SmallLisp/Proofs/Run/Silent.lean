import SmallLisp.Eval.Machine

/-!
# Silent computations

Most of what the evaluator does has nothing to do with the record of a run or with the depth of its
calls: it neither looks at them nor changes them (`Eval.IsSilent`). There is one lemma for each way
in which computations are built, and one for each part of the evaluator that does not ask a machine
for anything. Only output, and the record of an application, are not silent.
-/

namespace SmallLisp

/-- The state with another depth and another record. -/
def State.under (s : State) (depth : Nat) (events : Array Event) : State :=
  { s with depth, events }

namespace Eval

variable {α β : Type}

/-- An outcome with its state changed. -/
def carry (change : State → State) : EStateM.Result Failure State α → EStateM.Result Failure State α
  | .ok a s => .ok a (change s)
  | .error failure s => .error failure (change s)

theorem finalState_of_eq_carry {x y : Eval α} {s t : State} {change : State → State}
    (h : x s = carry change (y t)) : x.finalState s = change (y.finalState t) := by
  unfold finalState
  rw [h]
  cases y t with
  | ok a u => rfl
  | error failure u => rfl

/-- It makes no difference to the computation whether the state is changed before or after it. -/
def Follows (x : Eval α) (change : State → State) : Prop :=
  ∀ s, x (change s) = carry change (x s)

/-- The computation neither looks at the depth and the record nor changes them. -/
def IsSilent (x : Eval α) : Prop :=
  ∀ depth events, x.Follows (·.under depth events)

/-! ### Constructions -/

variable {change : State → State}

theorem Follows.bind {x : Eval α} {f : α → Eval β} (hx : x.Follows change)
    (hf : ∀ a, (f a).Follows change) : (x >>= f).Follows change := by
  intro s
  change EStateM.bind x f (change s) = carry change (EStateM.bind x f s)
  unfold EStateM.bind
  rw [hx s]
  cases x s with
  | ok a t => exact hf a t
  | error failure t => rfl

theorem IsSilent.bind {x : Eval α} {f : α → Eval β} (hx : x.IsSilent)
    (hf : ∀ a, (f a).IsSilent) : (x >>= f).IsSilent :=
  fun depth events => (hx depth events).bind fun a => hf a depth events

/-- A silent computation is the same under every depth and record, and puts neither aside: it can be
run before or after both are changed. -/
theorem IsSilent.follows_under {x : Eval α} (h : x.IsSilent) (depth : Nat → Nat)
    (record : Array Event → Array Event) :
    x.Follows fun s => s.under (depth s.depth) (record s.events) := by
  intro s
  -- the run keeps the depth and the record it is given, so both can be exchanged afterwards
  have hsame : x s = carry (·.under s.depth s.events) (x s) := h s.depth s.events s
  have hchanged := h (depth s.depth) (record s.events) s
  rw [hchanged]
  cases hx : x s with
  | ok a t =>
    rw [hx] at hsame
    have ht : t = t.under s.depth s.events := (EStateM.Result.ok.inj hsame).2
    rw [ht]
    rfl
  | error failure t =>
    rw [hx] at hsame
    have ht : t = t.under s.depth s.events := (EStateM.Result.error.inj hsame).2
    rw [ht]
    rfl

theorem isSilent_pure (a : α) : (pure a : Eval α).IsSilent :=
  fun _ _ _ => rfl

theorem isSilent_throw (failure : Failure) : (throw failure : Eval α).IsSilent :=
  fun _ _ _ => rfl

theorem isSilent_fail (fault : EvalFault) : (fail fault : Eval α).IsSilent :=
  isSilent_throw _

theorem isSilent_malformed (fault : SyntaxFault) : (malformed fault : Eval α).IsSilent :=
  isSilent_throw _

theorem isSilent_ofExcept {ε : Type} (toFailure : ε → Failure) (x : Except ε α) :
    (ofExcept toFailure x).IsSilent := by
  cases x with
  | ok a => exact isSilent_pure a
  | error fault => exact isSilent_throw _

/-- A computation that looks at the state, but not at the depth and the record. -/
theorem isSilent_get_bind {f : State → Eval α}
    (hsame : ∀ s depth events, f (s.under depth events) = f s) (hf : ∀ s, (f s).IsSilent) :
    (get >>= f).IsSilent := by
  intro depth events s
  change f (s.under depth events) (s.under depth events) = carry _ (f s s)
  rw [hsame]
  exact hf s depth events s

/-! ### What evaluations do to the state -/

theorem isSilent_settle (v : Value) : (settle v).IsSilent :=
  fun _ _ _ => rfl

theorem isSilent_closeRegistry : closeRegistry.IsSilent :=
  fun _ _ _ => rfl

theorem isSilent_lookup (env : Env) (name : String) : (lookup env name).IsSilent :=
  isSilent_get_bind (fun _ _ _ => rfl) fun _ => isSilent_ofExcept _ _

theorem isSilent_setSlot (id : FrameId) (name : String) (v : Value) :
    (setSlot id name v).IsSilent :=
  fun _ _ _ => rfl

theorem isSilent_assign (env : Env) (name : String) (v : Value) : (assign env name v).IsSilent :=
  isSilent_get_bind (fun _ _ _ => rfl) fun _ =>
    (isSilent_ofExcept _ _).bind fun id => isSilent_setSlot id name v

theorem isSilent_define (env : Env) (name : String) (v : Value) : (define env name v).IsSilent :=
  (isSilent_ofExcept _ _).bind fun id => isSilent_setSlot id name v

theorem isSilent_extend (env : Env) (names : List String) (values : List Value) :
    (extend env names values).IsSilent :=
  (isSilent_ofExcept _ _).bind fun _ _ _ _ => rfl

end Eval

/-! ### Parts of the evaluator -/

namespace Machine

open Eval

theorem isSilent_close (name : Option String) (parameters body : List Value) (env : Env) :
    (close name parameters body env).IsSilent :=
  (isSilent_ofExcept _ _).bind fun _ => isSilent_settle _

theorem isSilent_quote (elements : List Value) : (quote elements).IsSilent := by
  unfold quote
  split
  · exact isSilent_pure _
  · exact isSilent_malformed _

theorem isSilent_lambda (env : Env) (elements : List Value) : (lambda env elements).IsSilent := by
  unfold lambda
  split
  · exact isSilent_close _ _ _ _
  · exact isSilent_malformed _

theorem isSilent_defineTransformer (env : Env) (elements : List Value) :
    (defineTransformer env elements).IsSilent := by
  unfold defineTransformer
  split
  · exact (isSilent_ofExcept _ _).bind fun _ => (isSilent_settle _).bind fun _ =>
      (isSilent_define _ _ _).bind fun _ => isSilent_pure _
  · exact isSilent_malformed _

theorem isSilent_expand (name : String) (literals : List String) (clauses : List (Value × Value))
    (definition : Env) (elements : List Value) (env : Env) :
    (expand name literals clauses definition elements env).IsSilent :=
  isSilent_get_bind (fun _ _ _ => rfl) fun _ => isSilent_ofExcept _ _

theorem isSilent_pick (values : List Value) (number : Nat) : (pick values number).IsSilent := by
  unfold pick
  split
  · exact isSilent_pure _
  · exact isSilent_fail _

theorem isSilent_pickEach (values : List Value) (numbers : List Nat) :
    (pickEach values numbers).IsSilent := by
  induction numbers with
  | nil => exact isSilent_pure _
  | cons number numbers ih =>
    exact (isSilent_pick values number).bind fun _ => ih.bind fun _ => isSilent_pure _

theorem isSilent_pickName (elements : List Value) (number : Nat) :
    (pickName elements number).IsSilent := by
  unfold pickName
  split
  · exact isSilent_pure _
  · exact isSilent_fail _

theorem isSilent_visibleNames (env : Env) : (visibleNames env).IsSilent :=
  isSilent_get_bind (fun _ _ _ => rfl) fun _ => isSilent_settle _

/-- The machine without levels does nothing but close the registry. -/
theorem isSilent_evaluate_exhausted (e : Value) (env : Env) :
    (exhausted.evaluate e env).IsSilent :=
  isSilent_closeRegistry.bind fun _ => isSilent_fail _

theorem isSilent_apply_exhausted (procedure : Value) (arguments : List Value) :
    (exhausted.apply procedure arguments).IsSilent :=
  isSilent_fail _

end Machine

/-! ### The record of an application -/

/-- The state after one of the calls under way is over. -/
def State.leaving (s : State) : State :=
  { s with depth := s.depth - 1 }

theorem Eval.deeper_eq {α : Type} (x : Eval α) (s : State) :
    deeper x s = carry State.leaving (x { s with depth := s.depth + 1 }) := by
  rw [deeper_apply]
  cases x { s with depth := s.depth + 1 } <;> rfl

/-- The state in which a procedure begins that is applied with a trace. -/
def State.entering (s : State) (name : String) (arguments : List Value) : State :=
  { s with
    depth := s.depth + 1
    events := s.events.push (.trace (Machine.traceLine s.depth name arguments)) }

/-- With a trace, an application first records its line, and the call is counted as over at the
end. -/
theorem Machine.traced_eq {config : Config} (h : config.tracing = true) (name : String)
    (arguments : List Value) (call : Eval Value) (s : State) :
    traced config name arguments call s
      = Eval.carry State.leaving (call (s.entering name arguments)) := by
  unfold traced
  rw [if_pos h]
  exact Eval.deeper_eq call { s with
    events := s.events.push (.trace (traceLine s.depth name arguments)) }

/-- If the call itself keeps the depth, then the application puts it back to what it was. -/
theorem Machine.finalState_traced {config : Config} (h : config.tracing = true) {name : String}
    {arguments : List Value} {call : Eval Value} {s : State}
    (hdepth : (call.finalState (s.entering name arguments)).depth = s.depth + 1) :
    (traced config name arguments call).finalState s
      = { call.finalState (s.entering name arguments) with depth := s.depth } := by
  rw [Eval.finalState_of_eq_carry (traced_eq h name arguments call s), State.leaving, hdepth,
    Nat.add_sub_cancel]

end SmallLisp
