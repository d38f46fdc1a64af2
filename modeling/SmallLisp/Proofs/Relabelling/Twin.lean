import SmallLisp.Proofs.Relabelling.Operation
import SmallLisp.Proofs.Relabelling.Store
import SmallLisp.Proofs.Run.Silent

/-!
# Twin computations

Two computations are twins if the second one does to the relabelled state what the first one does to
the state: it ends in the relabelled value, or fails with the same code, and what it leaves is again
the relabelled state (`Twinning.Twins`). Objects that are made on the way receive numbers that
differ by an offset, so a relabelling has to be chosen for the numbers that the runs give out before
it is known how many these are. Therefore twins have to agree only if the first one gives out no
more than a limit; that it takes no number back is part of being twins, so the limit of a run is one
of its parts.

Twins write as many texts, at chosen places the same ones. The first computation may instead end in
a refusal, which is how it is told where a text can differ at all; where no places are chosen,
nothing is refused.

There is one lemma for each way in which computations are built and for each thing that they do to
the state.
-/

namespace SmallLisp

namespace State

/-- The texts that were written. -/
def outputs (s : State) : List String :=
  s.events.toList.filterMap fun
    | .output text => some text
    | .trace _ => none

theorem outputs_push_output (s : State) (text : String) :
    { s with events := s.events.push (.output text) }.outputs = s.outputs ++ [text] := by
  rw [outputs, Array.toList_push, List.filterMap_append]
  rfl

theorem outputs_push_trace (s : State) (line : String) :
    { s with events := s.events.push (.trace line) }.outputs = s.outputs := by
  rw [outputs, Array.toList_push, List.filterMap_append]
  exact List.append_nil _

/-- The second state is the first one relabelled, with as many texts. Nothing is said of the depth
and of the trace. -/
structure Alike (φ : Relabelling) (s s' : State) : Prop where
  store : s'.store = s.store.relabel φ
  registry : s'.registry = s.registry
  length : s'.outputs.length = s.outputs.length

/-- The same texts were written at these places, counted from the beginning. -/
def SameTexts (places : Nat → Bool) (s s' : State) : Prop :=
  ∀ place, places place = true → s'.outputs[place]? = s.outputs[place]?

/-- The states are alike, with the same texts at these places, and the second one gives out numbers
that are so much higher. -/
structure Mirrors (φ : Relabelling) (offset : Identity) (places : Nat → Bool) (s s' : State) : Prop
    extends Alike φ s s' where
  texts : SameTexts places s s'
  nextIdentity : s'.nextIdentity = s.nextIdentity + offset

end State

/-- Two runs end in the same way: both in a value, where `f` takes the one to the other, or both in
a failure with the same code; or else the first one was refused. -/
inductive Eval.Agree {α β : Type} (refused : Failure → Prop)
    (onValue onFailure : State → State → Prop) (f : α → β) :
    EStateM.Result Failure State α → EStateM.Result Failure State β → Prop where
  | refused {failure : Failure} (h : refused failure) (s : State)
      (r : EStateM.Result Failure State β) : Agree refused onValue onFailure f (.error failure s) r
  | ok (a : α) {s s' : State} (h : onValue s s') :
      Agree refused onValue onFailure f (.ok a s) (.ok (f a) s')
  | error {failure failure' : Failure} {s s' : State} (hcode : failure.code = failure'.code)
      (h : onFailure s s') :
      Agree refused onValue onFailure f (.error failure s) (.error failure' s')

theorem Eval.Agree.imp {α β : Type} {refused refused' : Failure → Prop}
    {onValue onFailure onValue' onFailure' : State → State → Prop} {f : α → β}
    {r : EStateM.Result Failure State α} {r' : EStateM.Result Failure State β}
    (h : Agree refused onValue onFailure f r r')
    (hrefused : ∀ failure, refused failure → refused' failure)
    (hvalue : ∀ a t t', r = .ok a t → onValue t t' → onValue' t t')
    (hfailure : ∀ failure t t', r = .error failure t → onFailure t t' → onFailure' t t') :
    Agree refused' onValue' onFailure' f r r' := by
  cases h with
  | refused h s => exact .refused (hrefused _ h) s _
  | ok a h => exact .ok a (hvalue a _ _ rfl h)
  | error hcode h => exact .error hcode (hfailure _ _ _ rfl h)

/-- Where states are related however the runs end, they are related in the end, unless the first run
was refused. -/
theorem Eval.Agree.finalState {α β : Type} {refused : Failure → Prop} {R : State → State → Prop}
    {f : α → β} {x : Eval α} {y : Eval β} {s s' : State}
    (h : Agree refused R R f (x s) (y s')) :
    (∃ failure t, x s = .error failure t ∧ refused failure) ∨
      R (x.finalState s) (y.finalState s') := by
  unfold Eval.finalState
  generalize x s = r at h ⊢
  generalize y s' = r' at h ⊢
  cases h with
  | refused hrefused t => exact .inl ⟨_, t, rfl, hrefused⟩
  | ok a hstates => exact .inr hstates
  | error _ hstates => exact .inr hstates

/-- By what two runs are compared. -/
structure Twinning extends Relabelling where
  /-- The first number that the first run gives out. -/
  start : Identity
  /-- By how much the numbers are higher that the second run gives out. -/
  offset : Identity
  /-- The runs have to agree if the first one gives out numbers below this one only. -/
  limit : Identity
  shifts : toRelabelling.Shifts offset start limit
  /-- The places at which the runs write the same text. -/
  places : Nat → Bool
  /-- How the first run ends where it does not go on. -/
  refusal : Failure

namespace Twinning

/-- The states of the two runs. -/
abbrev Mirrors (T : Twinning) (s s' : State) : Prop :=
  s.Mirrors T.toRelabelling T.offset T.places s'

/-- The failure is the refusal, and there is a place at which it may occur. -/
def Refuses (T : Twinning) (failure : Failure) : Prop :=
  failure = T.refusal ∧ ∃ place, T.places place = true

/-- The ends of the two runs. -/
abbrev Agree (T : Twinning) {α β : Type} (f : α → β) (r : EStateM.Result Failure State α)
    (r' : EStateM.Result Failure State β) : Prop :=
  Eval.Agree T.Refuses T.Mirrors T.Mirrors f r r'

/-- The computations are twins in a state. -/
structure TwinsAt (T : Twinning) {α β : Type} (f : α → β) (x : Eval α) (y : Eval β) (s : State) :
    Prop where
  le : s.nextIdentity ≤ (x.finalState s).nextIdentity
  agree : ∀ s', T.start ≤ s.nextIdentity → T.Mirrors s s' →
    (x.finalState s).nextIdentity ≤ T.limit → T.Agree f (x s) (y s')

/-- The computations are twins. -/
def Twins (T : Twinning) {α β : Type} (f : α → β) (x : Eval α) (y : Eval β) : Prop :=
  ∀ s, T.TwinsAt f x y s

/-- The relabelled state. -/
def mirror (T : Twinning) (s : State) : State :=
  { s with
    store := s.store.relabel T.toRelabelling
    nextIdentity := s.nextIdentity + T.offset }

variable {T : Twinning} {α β γ δ : Type} {f : α → β} {g : γ → δ} {x : Eval α} {y : Eval β}
  {s : State}

theorem mirrors_mirror (T : Twinning) (s : State) : T.Mirrors s (T.mirror s) :=
  ⟨⟨rfl, rfl, rfl⟩, fun _ _ => rfl, rfl⟩

/-! ### Constructions -/

/-- A computation that does not fail in this state, and its twin. -/
theorem twinsAt_of_ok {a : α} {t : State} (hx : x s = .ok a t)
    (hle : s.nextIdentity ≤ t.nextIdentity)
    (h : ∀ s', T.start ≤ s.nextIdentity → T.Mirrors s s' → t.nextIdentity ≤ T.limit →
      ∃ t', y s' = .ok (f a) t' ∧ T.Mirrors t t') : T.TwinsAt f x y s := by
  have hfinal : x.finalState s = t := Eval.finalState_of_ok hx
  constructor
  · rw [hfinal]
    exact hle
  · intro s' hstart hmirrors hlimit
    rw [hfinal] at hlimit
    obtain ⟨t', hy, ht⟩ := h s' hstart hmirrors hlimit
    rw [hx, hy]
    exact .ok a ht

theorem twins_pure (T : Twinning) (f : α → β) (a : α) : T.Twins f (pure a) (pure (f a)) :=
  fun _ => twinsAt_of_ok rfl (Nat.le_refl _) fun s' _ h _ => ⟨s', rfl, h⟩

theorem twins_throw (T : Twinning) (f : α → β) {failure failure' : Failure}
    (h : failure.code = failure'.code) : T.Twins f (throw failure) (throw failure') :=
  fun _ => ⟨Nat.le_refl _, fun _ _ hmirrors _ => .error h hmirrors⟩

theorem twins_malformed (T : Twinning) (f : α → β) (fault fault' : SyntaxFault) :
    T.Twins f (Eval.malformed fault) (Eval.malformed fault') :=
  twins_throw T f rfl

theorem twins_ofExcept {ε : Type} {E : ε → ε → Prop} {toFailure : ε → Failure} {u : Except ε α}
    {v : Except ε β} (h : Corresponds E f u v)
    (hcode : ∀ fault fault', E fault fault' →
      (toFailure fault).code = (toFailure fault').code) :
    T.Twins f (Eval.ofExcept toFailure u) (Eval.ofExcept toFailure v) := by
  cases h with
  | ok a => exact twins_pure T f a
  | error hfault => exact twins_throw T f (hcode _ _ hfault)

/-- Both fail in the shape of a form, or neither does. -/
theorem twins_ofExcept_alike {u : Except SyntaxFault α} {v : Except SyntaxFault β}
    (h : Corresponds SyntaxFault.Alike f u v) :
    T.Twins f (Eval.ofExcept .malformed u) (Eval.ofExcept .malformed v) :=
  twins_ofExcept h fun _ _ _ => rfl

/-- Both fail in their evaluation, or neither does. -/
theorem twins_ofExcept_sameCode {u : Except EvalFault α} {v : Except EvalFault β}
    (h : Corresponds EvalFault.SameCode f u v) :
    T.Twins f (Eval.ofExcept .eval u) (Eval.ofExcept .eval v) :=
  twins_ofExcept h fun _ _ hcode => hcode

theorem TwinsAt.bind {k : α → Eval γ} {k' : β → Eval δ} (h : T.TwinsAt f x y s)
    (hk : ∀ a, T.Twins g (k a) (k' (f a))) : T.TwinsAt g (x >>= k) (y >>= k') s := by
  cases hx : x s with
  | ok a t =>
    have ht : x.finalState s = t := Eval.finalState_of_ok hx
    have hbind : (x >>= k) s = k a t := Eval.bind_of_ok hx k
    have hfinal : (x >>= k).finalState s = (k a).finalState t := by
      rw [Eval.finalState, Eval.finalState, hbind]
    have hle : s.nextIdentity ≤ t.nextIdentity := ht ▸ h.le
    constructor
    · rw [hfinal]
      exact Nat.le_trans hle (hk a t).le
    · intro s' hstart hmirrors hlimit
      rw [hfinal] at hlimit
      -- the first part is within the limit since the second one takes no number back
      have hfirst := h.agree s' hstart hmirrors (by rw [ht]; exact Nat.le_trans (hk a t).le hlimit)
      rw [hx] at hfirst
      rw [hbind]
      generalize hy : y s' = r at hfirst
      cases hfirst with
      | ok _ hmiddle =>
        rw [Eval.bind_of_ok hy]
        exact (hk a t).agree _ (Nat.le_trans hstart hle) hmiddle hlimit
  | error failure t =>
    have ht : x.finalState s = t := Eval.finalState_of_error hx
    have hbind : (x >>= k) s = .error failure t := Eval.bind_of_error hx k
    have hfinal : (x >>= k).finalState s = t := Eval.finalState_of_error hbind
    constructor
    · rw [hfinal, ← ht]
      exact h.le
    · intro s' hstart hmirrors hlimit
      rw [hfinal, ← ht] at hlimit
      -- the second part is not reached, and after the refusal nothing is compared
      have hfirst := h.agree s' hstart hmirrors hlimit
      rw [hx] at hfirst
      rw [hbind]
      generalize hy : y s' = r at hfirst
      cases hfirst with
      | refused hrefused => exact .refused hrefused t _
      | error hcode hmiddle =>
        rw [Eval.bind_of_error hy]
        exact .error hcode hmiddle

theorem Twins.bind {k : α → Eval γ} {k' : β → Eval δ} (h : T.Twins f x y)
    (hk : ∀ a, T.Twins g (k a) (k' (f a))) : T.Twins g (x >>= k) (y >>= k') :=
  fun s => (h s).bind hk

/-- Both look at the state first. -/
theorem twins_get_bind {k : State → Eval α} {k' : State → Eval β}
    (h : ∀ s s', T.Mirrors s s' → T.Twins f (k s) (k' s')) :
    T.Twins f (get >>= k) (get >>= k') := by
  intro s
  constructor
  · exact (h s _ (T.mirrors_mirror s) s).le
  · intro s' hstart hmirrors hlimit
    exact (h s s' hmirrors s).agree s' hstart hmirrors hlimit

/-! ### What computations do to the state -/

theorem twins_closeRegistry (T : Twinning) :
    T.Twins id Eval.closeRegistry Eval.closeRegistry := by
  intro s
  refine twinsAt_of_ok rfl (Nat.le_refl _) fun s' _ h _ => ⟨_, rfl, ?_⟩
  exact ⟨⟨h.store, congrArg Registry.close h.registry, h.length⟩, h.texts, h.nextIdentity⟩

/-- What settles on both sides receives the numbers that the relabelling gives it. -/
theorem twins_settle (T : Twinning) (v : Value) :
    T.Twins (Value.relabel T.toRelabelling) (Eval.settle v)
      (Eval.settle (v.relabel T.toRelabelling)) := by
  intro s
  refine twinsAt_of_ok rfl (v.le_settle s.nextIdentity) fun s' hstart h hlimit => ?_
  have hsettle := v.settle_relabel s.nextIdentity (T.shifts.mono hstart hlimit)
  rw [← h.nextIdentity] at hsettle
  refine ⟨{ s' with nextIdentity := (v.settle s.nextIdentity).2 + T.offset }, ?_, ?_⟩
  · show EStateM.Result.ok ((v.relabel T.toRelabelling).settle s'.nextIdentity).1
      { s' with nextIdentity := ((v.relabel T.toRelabelling).settle s'.nextIdentity).2 } = _
    rw [hsettle]
  · exact ⟨⟨h.store, h.registry, h.length⟩, h.texts, rfl⟩

theorem twins_settleAll (T : Twinning) (vs : List Value) :
    T.Twins (List.map (Value.relabel T.toRelabelling)) (Eval.settleAll vs)
      (Eval.settleAll (vs.map (Value.relabel T.toRelabelling))) := by
  intro s
  refine twinsAt_of_ok rfl (Value.le_settleAll vs s.nextIdentity) fun s' hstart h hlimit => ?_
  have hsettle := Value.settleAll_relabel vs s.nextIdentity (T.shifts.mono hstart hlimit)
  rw [← h.nextIdentity, Value.relabelAll_eq_map, Value.relabelAll_eq_map] at hsettle
  refine ⟨{ s' with nextIdentity := (Value.settleAll vs s.nextIdentity).2 + T.offset }, ?_, ?_⟩
  · show EStateM.Result.ok (Value.settleAll (vs.map _) s'.nextIdentity).1
      { s' with nextIdentity := (Value.settleAll (vs.map _) s'.nextIdentity).2 } = _
    rw [hsettle]
  · exact ⟨⟨h.store, h.registry, h.length⟩, h.texts, rfl⟩

theorem twins_lookup (T : Twinning) (env : Env) (name : String) :
    T.Twins (Value.relabel T.toRelabelling) (Eval.lookup env name) (Eval.lookup env name) := by
  refine twins_get_bind fun s s' h => ?_
  have hlookup : s'.store.lookup env name
      = (s.store.lookup env name).map (Value.relabel T.toRelabelling) := by
    rw [h.store, Store.lookup_relabel]
  exact twins_ofExcept_sameCode (Operation.corresponds_of_eq_map hlookup)

theorem twins_setSlot (T : Twinning) (id : FrameId) (name : String) (v : Value) :
    T.Twins (fun _ : Unit => ()) (Eval.setSlot id name v)
      (Eval.setSlot id name (v.relabel T.toRelabelling)) := by
  intro s
  refine twinsAt_of_ok rfl (Nat.le_refl _) fun s' _ h _ => ⟨_, rfl, ?_⟩
  refine ⟨⟨?_, h.registry, h.length⟩, h.texts, h.nextIdentity⟩
  show s'.store.setSlot id name ((some v).map (Value.relabel T.toRelabelling)) = _
  rw [h.store, Store.setSlot_relabel]

theorem twins_assign (T : Twinning) (env : Env) (name : String) (v : Value) :
    T.Twins (fun _ : Unit => ()) (Eval.assign env name v)
      (Eval.assign env name (v.relabel T.toRelabelling)) := by
  refine twins_get_bind fun s s' h => ?_
  have hassignable : s'.store.assignable env name = s.store.assignable env name := by
    rw [h.store, Store.assignable_relabel]
  rw [hassignable]
  refine Twins.bind (f := id) ?_ fun id => twins_setSlot T id name v
  cases s.store.assignable env name with
  | ok id => exact twins_pure T _ id
  | error fault => exact twins_throw T _ rfl

theorem twins_define (T : Twinning) (env : Env) (name : String) (v : Value) :
    T.Twins (fun _ : Unit => ()) (Eval.define env name v)
      (Eval.define env name (v.relabel T.toRelabelling)) := by
  refine Twins.bind (f := id) ?_ fun id => twins_setSlot T id name v
  cases Store.definable env name with
  | ok id => exact twins_pure T _ id
  | error fault => exact twins_throw T _ rfl

/-- The new environment is the same on both sides. -/
theorem twins_extend (T : Twinning) (env : Env) (names : List String) (values : List Value) :
    T.Twins id (Eval.extend env names values)
      (Eval.extend env names (values.map (Value.relabel T.toRelabelling))) := by
  have hframe : Frame.ofArguments names ((values.map (Value.relabel T.toRelabelling)).map some)
      = (Frame.ofArguments names (values.map some)).map (Frame.relabel T.toRelabelling) := by
    rw [← Frame.ofArguments_relabel, List.map_map, List.map_map]
    rfl
  refine (twins_ofExcept_sameCode (Operation.corresponds_of_eq_map hframe)).bind ?_
  intro frame s
  refine twinsAt_of_ok rfl (Nat.le_refl _) fun s' _ h _ => ?_
  -- the stores have as many frames, so the new one has the same place in both
  have hpush := s.store.push_relabel env frame (φ := T.toRelabelling)
  rw [← h.store] at hpush
  refine ⟨{ s' with store := (s.store.push env frame).2.relabel T.toRelabelling }, ?_, ?_⟩
  · show EStateM.Result.ok (s'.store.push env (frame.relabel T.toRelabelling)).1
      { s' with store := (s'.store.push env (frame.relabel T.toRelabelling)).2 } = _
    rw [hpush]
    rfl
  · exact ⟨⟨rfl, h.registry, h.length⟩, h.texts, h.nextIdentity⟩

/-- Both write, and the same text if the place is one of those chosen. -/
theorem twinsAt_output {text text' : String}
    (h : T.places s.outputs.length = true → text' = text) :
    T.TwinsAt id (Eval.emit (.output text)) (Eval.emit (.output text')) s := by
  refine twinsAt_of_ok rfl (Nat.le_refl _) fun s' _ hmirrors _ => ⟨_, rfl, ?_⟩
  refine ⟨⟨hmirrors.store, hmirrors.registry, ?_⟩, ?_, hmirrors.nextIdentity⟩
  · rw [State.outputs_push_output, State.outputs_push_output, List.length_append,
      List.length_append, hmirrors.length]
    rfl
  · intro place hplace
    rw [State.outputs_push_output, State.outputs_push_output]
    -- the place is one of the texts before, the new one, or one that is still to come
    rcases Nat.lt_trichotomy place s.outputs.length with hlt | rfl | hgt
    · rw [List.getElem?_append_left hlt, List.getElem?_append_left (hmirrors.length ▸ hlt)]
      exact hmirrors.texts place hplace
    · rw [h hplace, List.getElem?_concat_length, ← hmirrors.length, List.getElem?_concat_length]
    · have hnone : ∀ (texts : List String) (last : String), texts.length = s.outputs.length →
          (texts ++ [last])[place]? = none := by
        intro texts last hlength
        refine List.getElem?_eq_none ?_
        rw [List.length_append, hlength]
        exact hgt
      rw [hnone _ _ rfl, hnone _ _ hmirrors.length]

/-- The record of an application is no text that is written, nor is the count of its call. -/
theorem twinsAt_traced {config : Config} {name name' : String} {arguments arguments' : List Value}
    {x y : Eval Value} {f : Value → Value}
    (h : ∀ t : State, t.outputs = s.outputs → T.TwinsAt f x y t) :
    T.TwinsAt f (Machine.traced config name arguments x)
      (Machine.traced config name' arguments' y) s := by
  -- with a trace the call runs in the state after the line, which is no output
  by_cases htracing : config.tracing = true
  · have hinner := h (s.entering name arguments) (s.outputs_push_trace _)
    have hx := Machine.traced_eq htracing name arguments x s
    have hfinal : ((Machine.traced config name arguments x).finalState s).nextIdentity
        = (x.finalState (s.entering name arguments)).nextIdentity := by
      rw [Eval.finalState_of_eq_carry hx]
      rfl
    constructor
    · rw [hfinal]
      exact hinner.le
    · intro s' hstart hmirrors hlimit
      rw [hfinal] at hlimit
      have hentering : T.Mirrors (s.entering name arguments) (s'.entering name' arguments') := by
        have hs : (s.entering name arguments).outputs = s.outputs := s.outputs_push_trace _
        have hs' : (s'.entering name' arguments').outputs = s'.outputs := s'.outputs_push_trace _
        refine ⟨⟨hmirrors.store, hmirrors.registry, ?_⟩, ?_, hmirrors.nextIdentity⟩
        · rw [hs, hs', hmirrors.length]
        · intro place hplace
          rw [hs, hs']
          exact hmirrors.texts place hplace
      rw [hx, Machine.traced_eq htracing]
      have hcall := hinner.agree _ hstart hentering hlimit
      generalize x (s.entering name arguments) = r at hcall ⊢
      generalize y (s'.entering name' arguments') = r' at hcall ⊢
      cases hcall with
      | refused hrefused => exact .refused hrefused _ _
      | ok a ht => exact .ok a ⟨⟨ht.store, ht.registry, ht.length⟩, ht.texts, ht.nextIdentity⟩
      | error hcode ht =>
        exact .error hcode ⟨⟨ht.store, ht.registry, ht.length⟩, ht.texts, ht.nextIdentity⟩
  · have hplain : ∀ name arguments call,
        Machine.traced config name arguments call = call := fun _ _ _ => if_neg htracing
    rw [hplain, hplain]
    exact h s rfl

end Twinning

end SmallLisp
