import Mathlib.Computability.Language
import Mathlib.Order.CompletePartialOrder
import SmallLisp.Proofs.Discipline.Registry
import SmallLisp.Proofs.Environment.Growth
import SmallLisp.Proofs.Relabelling.Numbering
import SmallLisp.Proofs.Run.CallTree
import SmallLisp.Proofs.Run.Dispatch
import SmallLisp.Proofs.Run.Levels

/-!
# Runs that return

With enough levels a computation ends in a value (`Returns`). What is said of it is a condition on
the value and the state that it leaves, and, with a trace, which forests of applications it can
have: a set of forests is a `Language` over trees, so that one computation after the other has the
product of the two languages, and a silent one has the language of the empty forest.

How many levels are enough is never said. There is one rule for each construction, and each of them
takes care of the levels that it needs, so that what is built from them does not mention any. A
procedure that is known to return with some number of levels only returns as well
(`returns_of_apply`), since more levels make no difference to a run that is not nested too deeply.
-/

namespace SmallLisp

/-! ### States that only gained something -/

/-- The second state has what the first one has: the same forms, the same output, and every frame as
it was. It may have more frames, and more numbers may have been given out. -/
structure State.Extends (s t : State) : Prop where
  handlers : t.registry.handlers = s.registry.handlers
  size_le : s.store.frames.size ≤ t.store.frames.size
  frame : ∀ id < s.store.frames.size, t.store.frame id = s.store.frame id
  outputs : t.outputs = s.outputs
  nextIdentity_le : s.nextIdentity ≤ t.nextIdentity

namespace State

variable {s t u : State}

theorem Extends.refl (s : State) : s.Extends s :=
  ⟨rfl, Nat.le_refl _, fun _ _ => rfl, rfl, Nat.le_refl _⟩

theorem Extends.trans (hst : s.Extends t) (htu : t.Extends u) : s.Extends u where
  handlers := htu.handlers.trans hst.handlers
  size_le := Nat.le_trans hst.size_le htu.size_le
  frame id hid := (htu.frame id (Nat.lt_of_lt_of_le hid hst.size_le)).trans (hst.frame id hid)
  outputs := htu.outputs.trans hst.outputs
  nextIdentity_le := Nat.le_trans hst.nextIdentity_le htu.nextIdentity_le

/-- Nothing is said of the depth. -/
theorem Extends.with_depth (h : s.Extends t) (depth : Nat) : s.Extends { t with depth } :=
  ⟨h.handlers, h.size_le, h.frame, h.outputs, h.nextIdentity_le⟩

theorem Extends.with_nextIdentity (h : s.Extends t) {next : Identity}
    (hle : t.nextIdentity ≤ next) : s.Extends { t with nextIdentity := next } :=
  ⟨h.handlers, h.size_le, h.frame, h.outputs, Nat.le_trans h.nextIdentity_le hle⟩

/-- The trace makes no difference to what was written. -/
theorem outputs_untraced (s : State) : s.untraced.outputs = s.outputs := by
  show (s.events.filter Event.isOutput).toList.filterMap _ = _
  rw [Array.toList_filter, List.filterMap_filter, outputs]
  refine List.filterMap_congr fun event _ => ?_
  cases event with
  | output text => rfl
  | trace line => rfl

theorem Extends.of_untraced (h : t.untraced = s.untraced) : s.Extends t := by
  have hstore : t.untraced.store = s.untraced.store := congrArg State.store h
  have hregistry : t.untraced.registry = s.untraced.registry := congrArg State.registry h
  have hnext : t.untraced.nextIdentity = s.untraced.nextIdentity := congrArg State.nextIdentity h
  change t.store = s.store at hstore
  change t.registry = s.registry at hregistry
  refine ⟨congrArg _ hregistry, ?_, fun id _ => by rw [hstore], ?_, Nat.le_of_eq hnext.symm⟩
  · rw [hstore]
  · rw [← outputs_untraced t, h, outputs_untraced]

theorem Extends.closed (s : State) : s.Extends s.closed :=
  ⟨rfl, Nat.le_refl _, fun _ _ => rfl, rfl, Nat.le_refl _⟩

theorem Extends.push (s : State) (env : Env) (f : Frame) :
    s.Extends { s with store := (s.store.push env f).2 } where
  handlers := rfl
  size_le := by
    rw [Store.size_push]
    exact Nat.le_succ _
  frame _ hid := Store.frame_push s.store env f hid
  outputs := rfl
  nextIdentity_le := Nat.le_refl _

/-- What is written into a newer frame leaves the older ones alone. -/
theorem Extends.setSlot (h : s.Extends t) {id : FrameId} (hid : s.store.frames.size ≤ id)
    (name : String) (value : Option Value) :
    s.Extends { t with store := t.store.setSlot id name value } where
  handlers := h.handlers
  size_le := by
    rw [Store.size_setSlot]
    exact h.size_le
  frame other hother := by
    -- only a frame that is new is written to
    have hne : other ≠ id := Nat.ne_of_lt (Nat.lt_of_lt_of_le hother hid)
    rw [Store.frame_setSlot_of_ne _ hne, h.frame other hother]
  outputs := h.outputs
  nextIdentity_le := h.nextIdentity_le

end State

/-! ### Returning -/

namespace Machine

open Eval CallTree

variable {config : Config} {α β : Type} {s t : State} {run : Machine → Eval α}
  {post post' : α → State → Prop} {forests forests' : Language CallTree}

/-- The trees with this application on top and below it a forest of the language. -/
def above (procedure : Value) (arguments : List Value) (forests : Language CallTree) :
    Language CallTree :=
  {calls | ∃ inner ∈ forests, calls = [.node procedure arguments inner]}

/-- **With enough levels the computation ends in a value**, and in a state, of which `post` holds.
With a trace it has one of these forests. -/
def Returns (config : Config) (run : Machine → Eval α) (s : State) (post : α → State → Prop)
    (forests : Language CallTree) : Prop :=
  ∃ a t, post a t ∧ ∃ least, ∀ levels ≥ least,
    run (machine config levels) s = .ok a t ∧
      (config.tracing = true → ∃ calls ∈ forests, Starts config levels run s calls)

theorem Returns.imp (h : Returns config run s post forests) (hpost : ∀ a t, post a t → post' a t)
    (hforests : forests ≤ forests') : Returns config run s post' forests' := by
  obtain ⟨a, t, ha, least, hruns⟩ := h
  refine ⟨a, t, hpost a t ha, least, fun levels hlevels => ?_⟩
  obtain ⟨hrun, htrace⟩ := hruns levels hlevels
  refine ⟨hrun, fun htracing => ?_⟩
  obtain ⟨calls, hcalls, hstarts⟩ := htrace htracing
  exact ⟨calls, hforests hcalls, hstarts⟩

/-- Only what a computation does in this state matters. -/
theorem Returns.congr {run' : Machine → Eval α} (h : Returns config run' s post forests)
    (hsame : ∀ m, run m s = run' m s) : Returns config run s post forests := by
  obtain ⟨a, t, ha, least, hruns⟩ := h
  refine ⟨a, t, ha, least, fun levels hlevels => ?_⟩
  obtain ⟨hrun, htrace⟩ := hruns levels hlevels
  refine ⟨(hsame _).trans hrun, fun htracing => ?_⟩
  obtain ⟨calls, hcalls, hstarts⟩ := htrace htracing
  -- the two computations end in the same state
  have hfinal := finalState_congr (hsame (machine config levels))
  refine ⟨calls, hcalls, hfinal ▸ hstarts.depth, hfinal ▸ hstarts.lines, ?_, ?_⟩
  · intro i a failure hi
    obtain ⟨u, hu⟩ := hstarts.starts i a failure hi
    exact ⟨u, (hsame _).trans hu⟩
  · intro place failure hplace
    exact (hsame _).trans ((hstarts.avoids place failure hplace).trans (hsame _).symm)

/-- A silent computation starts nothing. -/
theorem returns_silent {x : Eval α} {a : α} (hx : x.IsSilent) (hrun : x s = .ok a t)
    (ha : post a t) : Returns config (fun _ => x) s post 1 :=
  ⟨a, t, ha, 0, fun _ _ => ⟨hrun, fun _ => ⟨[], rfl, hx.traces s⟩⟩⟩

/-- One computation after the other. -/
theorem Returns.bind {f : Machine → α → Eval β} {postAfter : β → State → Prop}
    (hx : Returns config run s post forests)
    (hf : ∀ a t, post a t → Returns config (f · a) t postAfter forests') :
    Returns config (fun m => run m >>= f m) s postAfter (forests * forests') := by
  obtain ⟨a, t, ha, least, hruns⟩ := hx
  obtain ⟨b, u, hb, least', hruns'⟩ := hf a t ha
  -- levels that are enough for both parts
  refine ⟨b, u, hb, max least least', fun levels hlevels => ?_⟩
  obtain ⟨hrun, htrace⟩ := hruns levels (le_of_max_le_left hlevels)
  obtain ⟨hrun', htrace'⟩ := hruns' levels (le_of_max_le_right hlevels)
  refine ⟨(bind_of_ok hrun _).trans hrun', fun htracing => ?_⟩
  obtain ⟨calls, hcalls, hstarts⟩ := htrace htracing
  obtain ⟨others, hothers, hstarts'⟩ := htrace' htracing
  exact ⟨calls ++ others, Language.append_mem_mul hcalls hothers,
    hstarts.bind_of_ok hrun hstarts'⟩

/-- A silent computation before another one. -/
theorem Returns.after {x : Eval β} {b : β} {f : Machine → β → Eval α} (hx : x.IsSilent)
    (hrun : x s = .ok b t) (hf : Returns config (f · b) t post forests) :
    Returns config (fun m => x >>= f m) s post forests := by
  have hsilent : Returns config (fun _ => x) s (fun a u => a = b ∧ u = t) 1 :=
    returns_silent hx hrun ⟨rfl, rfl⟩
  rw [← one_mul forests]
  refine hsilent.bind ?_
  rintro _ _ ⟨rfl, rfl⟩
  exact hf

/-- A level of evaluation. -/
theorem Returns.evaluate {e : Value} {env : Env} {post : Value → State → Prop}
    (h : Returns config (evaluateStep config · e env) s post forests) :
    Returns config (·.evaluate e env) s post forests := by
  obtain ⟨a, t, ha, least, hruns⟩ := h
  refine ⟨a, t, ha, least + 1, fun levels hlevels => ?_⟩
  obtain ⟨more, rfl⟩ := Nat.exists_eq_add_of_le' hlevels
  exact hruns (more + least) (Nat.le_add_left least more)

/-- The application of a procedure is its call, under a line of its own. -/
theorem Returns.apply {procedure : Value} {arguments : List Value} {call : Machine → Eval Value}
    {post : Value → State → Prop} (hprocedure : procedure.isProcedure = true)
    (hcall : ∀ config m, applyStep config m procedure arguments
      = Machine.traced config procedure.callName arguments (call m))
    (hdepth : ∀ v t depth, post v t → post v { t with depth })
    (h : ∀ inner, inner.untraced = s.untraced → Returns config call inner post forests) :
    Returns config (·.apply procedure arguments) s post (above procedure arguments forests) := by
  -- with tracing the call runs behind its line and one level deeper
  by_cases htracing : config.tracing = true
  · let inner := s.entering procedure.callName arguments
    have hstep : ∀ m, applyStep config m procedure arguments s
        = carry State.leaving (call m inner) := by
      intro m
      rw [hcall, traced_eq htracing]
    obtain ⟨v, t, hv, least, hruns⟩ := h inner (s.untraced_entering procedure.callName arguments)
    refine ⟨v, t.leaving, hdepth v t (t.depth - 1) hv, least + 1, ?_⟩
    intro levels hlevels
    -- the application takes one level, the call has the others
    obtain ⟨more, rfl⟩ := Nat.exists_eq_add_of_le' hlevels
    obtain ⟨hrun, htrace⟩ := hruns (more + least) (Nat.le_add_left least more)
    constructor
    · exact (hstep (machine config (more + least))).trans (congrArg (carry _) hrun)
    · intro _
      obtain ⟨calls, hcalls, hstarts⟩ := htrace htracing
      exact ⟨_, ⟨calls, hcalls, rfl⟩, traces_apply htracing hprocedure hcall hstarts⟩
  · have hstep : ∀ m, applyStep config m procedure arguments = call m := by
      intro m
      rw [hcall, Machine.traced, if_neg htracing]
    obtain ⟨v, t, hv, least, hruns⟩ := h s rfl
    refine ⟨v, t, hv, least + 1, fun levels hlevels => ?_⟩
    obtain ⟨more, rfl⟩ := Nat.exists_eq_add_of_le' hlevels
    obtain ⟨hrun, -⟩ := hruns (more + least) (Nat.le_add_left least more)
    exact ⟨(congrFun (hstep (machine config (more + least))) s).trans hrun,
      fun h => absurd h htracing⟩

/-- **A procedure that returns with some number of levels returns.** Whatever forest it starts is
under its own line. -/
theorem returns_of_apply {procedure : Value} {arguments : List Value} {levels : Nat} {v : Value}
    {post : Value → State → Prop} (hprocedure : procedure.isProcedure = true)
    (hrun : (machine config levels).apply procedure arguments s = .ok v t) (hv : post v t) :
    Returns config (·.apply procedure arguments) s post (above procedure arguments ⊤) := by
  refine ⟨v, t, hv, levels + 1, fun more hmore => ?_⟩
  obtain ⟨more, rfl⟩ := Nat.exists_eq_add_of_le' hmore
  constructor
  · -- it returned, so it did not run out of levels, and more of them change nothing
    have hnot : ¬ Exhausted ((machine config levels).apply procedure arguments s) := by
      rw [hrun]
      rintro ⟨u, hu⟩
      cases hu
    have hprecedes := ((Comparison.machines_levels config (Nat.le_of_succ_le hmore)).apply
      procedure arguments).1 s
    exact (hprecedes.eq_of_not_exhausted hnot).trans hrun
  · intro htracing
    obtain ⟨calls, hcalls⟩ :=
      (keepsTrace htracing (more + levels)).exists_traces_apply htracing hprocedure arguments s
    exact ⟨_, ⟨calls, trivial, rfl⟩, hcalls⟩

/-- Whatever it does inside, an application registers nothing, no frame disappears, and no number is
given out again. -/
theorem extends_of_apply {procedure : Value} {arguments : List Value} {levels : Nat} {v : Value}
    (hrun : (machine config levels).apply procedure arguments s = .ok v t)
    (houtputs : t.outputs = s.outputs)
    (hframe : ∀ id < s.store.frames.size, t.store.frame id = s.store.frame id) : s.Extends t := by
  have hleads := (Footprint.growth _).leads_apply config levels procedure arguments s
  have hnext := le_nextIdentity_apply config levels procedure arguments s
  rw [finalState_of_ok hrun] at hleads hnext
  exact ⟨hleads.handlers, hleads.rel.size_le, hframe, houtputs, hnext⟩

end Machine

end SmallLisp
