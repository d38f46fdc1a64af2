import SmallLisp.Proofs.Run.Asks
import SmallLisp.Proofs.Run.Interruption
import SmallLisp.Proofs.Session.Invariant

/-!
# The trace is the call tree

With a trace, a run records one line for each application that it starts. The applications form a
forest, each with those that are started inside it (`CallTree`), and the lines of a run are those of
the forest in preorder, each indented by the depth of its application. `Eval.Traces` says so of a
computation, and that the applications of the forest are those that it starts, in this order: it
ends at each of them if it is interrupted there. However a computation ends, it puts the depth back.

The forest of a computation is built along its construction. What it asks of its machine brings the
forest of that machine with it (`Machine.Asks.traced`), and the application of a procedure stands on
top of the forest of its call (`Machine.traces_apply`). So with a trace every machine has forests
(`Machine.keepsTrace`), and so have the runs of a session (`Session.trace_preorder`).
-/

namespace SmallLisp

/-! ### Lines -/

/-- What a procedure is called in a trace. -/
def Value.callName : Value → String
  | .primitive action _ => action.name
  | .compound name _ _ _ _ => name.getD "lambda"
  | other => other.write

/-- The line that records an application. -/
def Application.line (a : Application) : String :=
  Machine.traceLine a.depth a.procedure.callName a.arguments

/-- The lines of trace in the record. -/
def State.lines (s : State) : List String :=
  s.events.toList.filterMap fun
    | .trace line => some line
    | .output _ => none

/-- By how many levels a line of trace is indented. -/
def Session.indentation (line : String) : Nat :=
  ((line.toList.drop "[trace] ".length).takeWhile (· == ' ')).length / 2

@[simp] theorem State.lines_push_trace (s : State) (line : String) :
    { s with events := s.events.push (.trace line) }.lines = s.lines ++ [line] := by
  simp [lines]

@[simp] theorem State.lines_push_output (s : State) (text : String) :
    { s with events := s.events.push (.output text) }.lines = s.lines := by
  simp [lines]

theorem Machine.toList_traceLine (depth : Nat) (name : String) (arguments : List Value) :
    (traceLine depth name arguments).toList = "[trace] ".toList
      ++ (List.replicate (2 * depth) ' '
        ++ '(' :: (Value.spaced
          (name.toList :: arguments.map (Value.spell .written)) ++ [')'])) := by
  unfold traceLine
  simp only [String.toList_ofList, List.append_assoc]

/-- A line is indented by the depth of its application, neither more nor less. -/
theorem Application.indentation_line (a : Application) :
    Session.indentation a.line = a.depth := by
  -- the spaces end at the parenthesis
  have hspaces : ∀ shown, (List.replicate (2 * a.depth) ' ' ++ '(' :: shown).takeWhile (· == ' ')
      = List.replicate (2 * a.depth) ' ' := by
    intro shown
    rw [List.takeWhile_append_of_pos fun c hc => beq_iff_eq.2 (List.eq_of_mem_replicate hc)]
    exact List.append_nil _
  rw [Session.indentation, line, Machine.toList_traceLine, ← String.length_toList, List.drop_left,
    hspaces, List.length_replicate]
  exact Nat.mul_div_cancel_left a.depth Nat.two_pos

/-! ### Forests -/

/-- An application with those that are started inside it. -/
inductive CallTree where
  | node (procedure : Value) (arguments : List Value) (calls : List CallTree)

namespace CallTree

mutual

/-- The applications of a tree that starts at a depth, each before those inside it. -/
def preorder (depth : Nat) : CallTree → List Application
  | node procedure arguments calls => ⟨depth, procedure, arguments⟩ :: preorderAll (depth + 1) calls

/-- The applications of several trees, one tree after the other. -/
def preorderAll (depth : Nat) : List CallTree → List Application
  | [] => []
  | tree :: trees => tree.preorder depth ++ preorderAll depth trees

end

@[simp] theorem preorderAll_nil (depth : Nat) : preorderAll depth [] = [] := rfl

@[simp] theorem preorderAll_node (depth : Nat) (procedure : Value) (arguments : List Value)
    (calls : List CallTree) :
    preorderAll depth [node procedure arguments calls]
      = ⟨depth, procedure, arguments⟩ :: preorderAll (depth + 1) calls := by
  simp [preorderAll, preorder]

@[simp] theorem preorderAll_append (depth : Nat) (trees others : List CallTree) :
    preorderAll depth (trees ++ others) = preorderAll depth trees ++ preorderAll depth others := by
  induction trees with
  | nil => rfl
  | cons tree trees ih => simp [preorderAll, ih]

mutual

/-- No application of a tree is less deep than the tree. -/
theorem le_depth_of_mem_preorder {depth : Nat} {tree : CallTree} {a : Application}
    (h : a ∈ tree.preorder depth) : depth ≤ a.depth := by
  cases tree with
  | node procedure arguments calls =>
    rw [preorder] at h
    rcases List.mem_cons.1 h with rfl | hcalls
    · exact Nat.le_refl depth
    · exact Nat.le_of_succ_le (le_depth_of_mem_preorderAll hcalls)

theorem le_depth_of_mem_preorderAll {depth : Nat} {trees : List CallTree} {a : Application}
    (h : a ∈ preorderAll depth trees) : depth ≤ a.depth := by
  cases trees with
  | nil => cases h
  | cons tree trees =>
    rw [preorderAll] at h
    rcases List.mem_append.1 h with htree | htrees
    · exact le_depth_of_mem_preorder htree
    · exact le_depth_of_mem_preorderAll htrees

end

end CallTree

/-! ### Runs -/

open Eval CallTree

/-- **The applications that a computation starts are those of the forest, in preorder, and no
others,** and it records a line for each; the depth is afterwards what it was. Here `y place
failure` is the computation with an interruption where it starts an application while so many lines
stand: where the forest has an application, this is the one at which it ends, and where the forest
has none, it is the same computation. -/
structure Eval.Traces {α : Type} (x : Eval α) (y : Nat → (Application → Failure) → Eval α)
    (s : State) (calls : List CallTree) : Prop where
  depth : (x.finalState s).depth = s.depth
  lines : (x.finalState s).lines = s.lines ++ (preorderAll s.depth calls).map Application.line
  starts : ∀ i a failure, (preorderAll s.depth calls)[i]? = some a →
    ∃ t, y (s.lines.length + i) failure s = .error (failure a) t
  avoids : ∀ place failure,
    place < s.lines.length ∨ s.lines.length + (preorderAll s.depth calls).length ≤ place →
      y place failure s = x s

namespace Eval

variable {α β : Type}

/-- From every state there is a forest of the applications that the computation starts. -/
def Traced (x : Eval α) (y : Nat → (Application → Failure) → Eval α) : Prop :=
  ∀ s, ∃ calls, x.Traces y s calls

/-- Where no line is recorded and nothing is interrupted, no application is started. -/
theorem traces_nil {x : Eval α} {s : State} (hdepth : (x.finalState s).depth = s.depth)
    (hlines : (x.finalState s).lines = s.lines) {y : Nat → (Application → Failure) → Eval α}
    (hy : ∀ place failure, y place failure s = x s) : x.Traces y s [] where
  depth := hdepth
  lines := by rw [hlines, preorderAll_nil, List.map_nil, List.append_nil]
  starts i a failure h := nomatch h
  avoids place failure _ := hy place failure

theorem IsSilent.traces {x : Eval α} (h : x.IsSilent) (s : State) :
    x.Traces (fun _ _ => x) s [] := by
  have hsame : x s = carry (·.under s.depth s.events) (x s) := h s.depth s.events s
  have hfinal : x.finalState s = (x.finalState s).under s.depth s.events :=
    finalState_of_eq_carry hsame
  refine traces_nil ?_ ?_ fun _ _ => rfl
  · rw [hfinal]
    rfl
  · rw [hfinal]
    rfl

theorem IsSilent.traced {x : Eval α} (h : x.IsSilent) : x.Traced fun _ _ => x :=
  fun s => ⟨[], h.traces s⟩

theorem traced_output (text : String) :
    (emit (.output text)).Traced fun _ _ => emit (.output text) := by
  intro s
  refine ⟨[], traces_nil rfl ?_ fun _ _ => rfl⟩
  exact State.lines_push_output s text

variable {x : Eval α} {f : α → Eval β} {y : Nat → (Application → Failure) → Eval α}
  {g : Nat → (Application → Failure) → α → Eval β} {s t : State} {calls others : List CallTree}

/-- If the first of two computations fails, the second one is not started. -/
theorem Traces.bind_of_error {fault : Failure} (hx : x.Traces y s calls)
    (hrun : x s = .error fault t) (f : α → Eval β)
    (g : Nat → (Application → Failure) → α → Eval β) :
    (x >>= f).Traces (fun place failure => y place failure >>= g place failure) s calls := by
  have hfinal : (x >>= f).finalState s = x.finalState s := by
    rw [finalState_of_error hrun, finalState_of_error (Eval.bind_of_error hrun f)]
  refine ⟨?_, ?_, ?_, ?_⟩
  · rw [hfinal, hx.depth]
  · rw [hfinal, hx.lines]
  · intro i a failure ha
    obtain ⟨u, hu⟩ := hx.starts i a failure ha
    exact ⟨u, Eval.bind_of_error hu _⟩
  · -- the second computation is not reached, with an interruption elsewhere or without
    intro place failure hplace
    have hsame := hx.avoids place failure hplace
    rw [Eval.bind_of_error hrun, Eval.bind_of_error (hsame.trans hrun)]

/-- If the first of two computations ends in a value, its applications come first. -/
theorem Traces.bind_of_ok {b : α} (hx : x.Traces y s calls) (hrun : x s = .ok b t)
    (hf : (f b).Traces (fun place failure => g place failure b) t others) :
    (x >>= f).Traces (fun place failure => y place failure >>= g place failure) s
      (calls ++ others) := by
  have ht : x.finalState s = t := finalState_of_ok hrun
  have hdepth : t.depth = s.depth := ht ▸ hx.depth
  have hlines : t.lines = s.lines ++ (preorderAll s.depth calls).map Application.line :=
    ht ▸ hx.lines
  -- where the lines of the second computation begin
  have hlength : t.lines.length = s.lines.length + (preorderAll s.depth calls).length := by
    rw [hlines, List.length_append, List.length_map]
  have hfinal : (x >>= f).finalState s = (f b).finalState t := by
    rw [finalState, finalState, Eval.bind_of_ok hrun]
  refine ⟨?_, ?_, ?_, ?_⟩
  · rw [hfinal, hf.depth, hdepth]
  · rw [hfinal, hf.lines, hlines, hdepth, preorderAll_append, List.map_append, List.append_assoc]
  · intro i a failure ha
    rw [preorderAll_append, List.getElem?_append] at ha
    split at ha
    · obtain ⟨u, hu⟩ := hx.starts i a failure ha
      exact ⟨u, Eval.bind_of_error hu _⟩
    · -- the application is one of the second computation: the first one is not interrupted
      next hi =>
      have hle := Nat.le_of_not_lt hi
      have hsame := hx.avoids (s.lines.length + i) failure (.inr (Nat.add_le_add_left hle _))
      rw [Eval.bind_of_ok (hsame.trans hrun)]
      have hplace : s.lines.length + i
          = t.lines.length + (i - (preorderAll s.depth calls).length) := by omega
      rw [hplace]
      exact hf.starts _ a failure (hdepth ▸ ha)
  · -- an interruption at a line of neither leaves both as they are
    intro place failure hplace
    rw [preorderAll_append, List.length_append] at hplace
    have hsame := hx.avoids place failure (by omega)
    rw [Eval.bind_of_ok hrun, Eval.bind_of_ok (hsame.trans hrun)]
    refine hf.avoids place failure ?_
    rw [hdepth, hlength]
    omega

/-- One computation after the other starts first the applications of the one, and then, if this
ends in a value, those of the other. -/
theorem Traced.bind (hx : x.Traced y) (hf : ∀ a, (f a).Traced fun place failure =>
    g place failure a) :
    (x >>= f).Traced fun place failure => y place failure >>= g place failure := by
  intro s
  obtain ⟨calls, hcalls⟩ := hx s
  cases hrun : x s with
  | error fault t => exact ⟨calls, hcalls.bind_of_error hrun f g⟩
  | ok b t =>
    obtain ⟨others, hothers⟩ := hf b t
    exact ⟨calls ++ others, hcalls.bind_of_ok hrun hothers⟩

end Eval

namespace Machine

/-- The application of a procedure while so many lines stand. -/
def startsAt (place : Nat) (s : State) (procedure : Value) (_ : List Value) : Bool :=
  procedure.isProcedure && s.lines.length == place

/-- The machine that is interrupted where it starts an application while so many lines stand. -/
def interruptedAt (config : Config) (levels place : Nat) (failure : Application → Failure) :
    Machine :=
  interruptedLevels (startsAt place) failure config levels

/-- What asks a machine brings the forests of the machine with it. -/
theorem Asks.traced {m : Machine} {n : Nat → (Application → Failure) → Machine}
    (hevaluate : ∀ e env, (m.evaluate e env).Traced fun place failure =>
      (n place failure).evaluate e env)
    (happly : ∀ procedure arguments, (m.apply procedure arguments).Traced fun place failure =>
      (n place failure).apply procedure arguments)
    {α : Type} {x : Machine → Eval α} (hx : Asks x) :
    (x m).Traced fun place failure => x (n place failure) := by
  induction hx with
  | silent hx => exact hx.traced
  | output text => exact traced_output text
  | evaluate e env => exact hevaluate e env
  | apply procedure arguments => exact happly procedure arguments
  | bind _ _ hx hf => exact hx.bind hf

/-! ### Applications -/

variable {config : Config} {levels : Nat} {procedure : Value} {arguments : List Value} {s : State}

/-- To apply a procedure is to record a call, which asks the machine below. -/
theorem exists_call (h : procedure.isProcedure = true) (arguments : List Value) :
    ∃ call : Machine → Eval Value, Asks call ∧ ∀ config m,
      applyStep config m procedure arguments
        = Machine.traced config procedure.callName arguments (call m) := by
  cases procedure with
  | primitive action self =>
    exact ⟨fun m => m.perform action arguments, asks_perform action arguments, fun _ _ => rfl⟩
  | compound name parameters body env self =>
    exact ⟨_, asks_body env parameters arguments body, fun _ _ => rfl⟩
  | _ => cases h

theorem applyStep_of_not_isProcedure (h : procedure.isProcedure = false) (m : Machine) :
    applyStep config m procedure arguments = fail (.notAProcedure procedure.write) := by
  cases procedure with
  | primitive action self => cases h
  | compound name parameters body env self => cases h
  | _ => rfl

/-- A machine that has no levels, and one that is to apply what is no procedure, start nothing. -/
theorem traces_apply_nil (h : levels = 0 ∨ procedure.isProcedure = false) (s : State) :
    ((machine config levels).apply procedure arguments).Traces
      (fun place failure => (interruptedAt config levels place failure).apply procedure arguments)
      s [] := by
  cases levels with
  | zero => exact traces_nil rfl rfl fun _ _ => rfl
  | succ levels =>
    have hprocedure : procedure.isProcedure = false := h.resolve_left (Nat.succ_ne_zero levels)
    -- whatever machine is below, it is not asked
    have hfails : ∀ m, applyStep config m procedure arguments s
        = .error (.eval (.notAProcedure procedure.write)) s := by
      intro m
      rw [applyStep_of_not_isProcedure hprocedure]
      rfl
    have hfinal : ((machine config (levels + 1)).apply procedure arguments).finalState s = s :=
      finalState_of_error (hfails _)
    refine traces_nil ?_ ?_ fun place failure => ?_
    · rw [hfinal]
    · rw [hfinal]
    · have hstops : startsAt place s procedure arguments = false := by
        rw [startsAt, hprocedure, Bool.false_and]
      exact (apply_interruptedLevels_of_not_stops hstops).trans ((hfails _).trans (hfails _).symm)

/-- What the machine of so many levels does has a forest, also where it is interrupted. -/
structure KeepsTrace (config : Config) (levels : Nat) : Prop where
  evaluate : ∀ e env, ((machine config levels).evaluate e env).Traced fun place failure =>
    (interruptedAt config levels place failure).evaluate e env
  apply : ∀ procedure arguments, ((machine config levels).apply procedure arguments).Traced
    fun place failure => (interruptedAt config levels place failure).apply procedure arguments

theorem KeepsTrace.of_asks (h : KeepsTrace config levels) {α : Type} {x : Machine → Eval α}
    (hx : Asks x) :
    (x (machine config levels)).Traced fun place failure =>
      x (interruptedAt config levels place failure) :=
  hx.traced h.evaluate h.apply

/-- The application of a procedure starts with its own line, and one level deeper the procedure
starts the forest of its call. -/
theorem traces_apply (htracing : config.tracing = true) (hprocedure : procedure.isProcedure = true)
    {call : Machine → Eval Value} (hcall : ∀ config m, applyStep config m procedure arguments
      = Machine.traced config procedure.callName arguments (call m))
    {calls : List CallTree} (hcalls : (call (machine config levels)).Traces
      (fun place failure => call (interruptedAt config levels place failure))
      (s.entering procedure.callName arguments) calls) :
    ((machine config (levels + 1)).apply procedure arguments).Traces
      (fun place failure =>
        (interruptedAt config (levels + 1) place failure).apply procedure arguments)
      s [.node procedure arguments calls] := by
  let inner := s.entering procedure.callName arguments
  have hlines : inner.lines = s.lines ++ [(Application.mk s.depth procedure arguments).line] :=
    State.lines_push_trace s _
  have hlength : inner.lines.length = s.lines.length + 1 := by
    rw [hlines, List.length_append, List.length_singleton]
  -- every machine runs its call in the state `inner`
  have hstep : ∀ m, applyStep config m procedure arguments s
      = carry State.leaving (call m inner) := by
    intro m
    rw [hcall, traced_eq htracing]
  -- the call keeps the depth of its own forest, so that counting it as over puts the depth back
  have hfinal : ((machine config (levels + 1)).apply procedure arguments).finalState s
      = { (call (machine config levels)).finalState inner with depth := s.depth } := by
    rw [apply_machine_succ, hcall]
    exact finalState_traced htracing hcalls.depth
  -- unless it is interrupted before
  have hinterrupted : ∀ place failure, place ≠ s.lines.length →
      (interruptedAt config (levels + 1) place failure).apply procedure arguments s
        = carry State.leaving
            (call (interruptedAt config levels place failure) inner) := by
    intro place failure hplace
    have hstops : startsAt place s procedure arguments = false := by
      rw [startsAt, hprocedure, Bool.true_and]
      exact beq_false_of_ne hplace.symm
    exact (apply_interruptedLevels_of_not_stops hstops).trans (hstep _)
  refine ⟨?_, ?_, ?_, ?_⟩
  · rw [hfinal]
  · have hall : ((call (machine config levels)).finalState inner).lines
        = s.lines ++ [(Application.mk s.depth procedure arguments).line]
          ++ (preorderAll (s.depth + 1) calls).map Application.line := by
      rw [hcalls.lines, hlines]
      rfl
    rw [hfinal, preorderAll_node, List.map_cons, List.append_cons]
    exact hall
  · intro i a failure ha
    rw [preorderAll_node] at ha
    cases i with
    | zero =>
      -- the application itself
      obtain rfl := Option.some.inj ha
      have hstops : startsAt (s.lines.length + 0) s procedure arguments = true := by
        rw [startsAt, hprocedure, Bool.true_and, Nat.add_zero]
        exact beq_self_eq_true _
      exact ⟨s, apply_interruptedLevels_of_stops hstops⟩
    | succ i =>
      obtain ⟨t, ht⟩ := hcalls.starts i a failure ha
      have hplace : s.lines.length + (i + 1) = inner.lines.length + i := by omega
      refine ⟨t.leaving, ?_⟩
      rw [hinterrupted _ failure (by omega), hplace, ht]
      rfl
  · intro place failure hplace
    rw [preorderAll_node, List.length_cons] at hplace
    have hsame := hcalls.avoids place failure (by
      change place < inner.lines.length ∨
        inner.lines.length + (preorderAll (s.depth + 1) calls).length ≤ place
      omega)
    rw [hinterrupted place failure (by omega), hsame]
    exact (hstep _).symm

/-- The application of a procedure has a forest below its own line. -/
theorem KeepsTrace.exists_traces_apply (h : KeepsTrace config levels)
    (htracing : config.tracing = true) (hprocedure : procedure.isProcedure = true)
    (arguments : List Value) (s : State) :
    ∃ calls, ((machine config (levels + 1)).apply procedure arguments).Traces
      (fun place failure =>
        (interruptedAt config (levels + 1) place failure).apply procedure arguments)
      s [.node procedure arguments calls] := by
  obtain ⟨call, hasks, hcall⟩ := exists_call hprocedure arguments
  obtain ⟨calls, hcalls⟩ := h.of_asks hasks (s.entering procedure.callName arguments)
  exact ⟨calls, traces_apply htracing hprocedure hcall hcalls⟩

/-- **With a trace, every machine keeps one.** -/
theorem keepsTrace (htracing : config.tracing = true) (levels : Nat) :
    KeepsTrace config levels := by
  induction levels with
  | zero =>
    constructor
    · intro e env
      exact (isSilent_evaluate_exhausted e env).traced
    · intro procedure arguments s
      exact ⟨[], traces_apply_nil (.inl rfl) s⟩
  | succ levels ih =>
    constructor
    · intro e env
      exact ih.of_asks (asks_evaluateStep config e env)
    · intro procedure arguments s
      -- what is no procedure is refused before a line is written
      cases hprocedure : procedure.isProcedure with
      | false => exact ⟨[], traces_apply_nil (.inr hprocedure) s⟩
      | true =>
        obtain ⟨calls, hcalls⟩ := ih.exists_traces_apply htracing hprocedure arguments s
        exact ⟨_, hcalls⟩

/-- The run starts the applications of the forest and records them. -/
def Starts {α : Type} (config : Config) (levels : Nat) (run : Machine → Eval α) (s : State)
    (calls : List CallTree) : Prop :=
  (run (machine config levels)).Traces
    (fun place failure => run (interruptedAt config levels place failure)) s calls

end Machine

/-! ### Sessions -/

namespace Session

open Machine

/-- A run adds the lines of a forest to the record, and puts the depth back. -/
theorem exists_starts_run (s : Session) (htracing : s.config.tracing = true) (source : String)
    (file : Option String) : ∃ calls,
      (s.run source file).2.state.depth = s.state.depth ∧
      (s.run source file).2.state.lines
        = s.state.lines ++ (preorderAll s.state.depth calls).map Application.line ∧
      ∀ es, Source.read source file = .ok es →
        Starts s.config s.limit (program · s.global none es) s.state calls := by
  unfold run
  cases Source.read source file with
  -- a text that cannot be read runs nothing
  | error failure => exact ⟨[], rfl, (List.append_nil _).symm, nofun⟩
  | ok es =>
    obtain ⟨calls, hcalls⟩ :=
      (keepsTrace htracing s.limit).of_asks (asks_program s.global none es) s.state
    refine ⟨calls, ?_, ?_, ?_⟩
    · dsimp only
      rw [state_perform]
      exact hcalls.depth
    · dsimp only
      rw [state_perform]
      exact hcalls.lines
    · rintro _ ⟨⟩
      exact hcalls

theorem config_run (s : Session) (source : String) (file : Option String) :
    (s.run source file).2.config = s.config := by
  unfold run perform
  split
  · rfl
  · split <;> rfl

/-- Runs put the depth back, one after the other. -/
theorem depth_runAll {s : Session} (htracing : s.config.tracing = true)
    (texts : List (String × Option String)) :
    (s.runAll texts).config = s.config ∧ (s.runAll texts).state.depth = s.state.depth := by
  induction texts generalizing s with
  | nil => exact ⟨rfl, rfl⟩
  | cons text texts ih =>
    obtain ⟨-, hdepth, -, -⟩ := exists_starts_run s htracing text.1 text.2
    have hconfig := config_run s text.1 text.2
    obtain ⟨hconfigs, hdepths⟩ := ih (hconfig ▸ htracing)
    exact ⟨hconfigs.trans hconfig, hdepths.trans hdepth⟩

/-- **The trace is the call tree in order.** With a trace, an evaluation from any state, whatever it
ends in, starts the applications of a forest and records their lines in preorder, and afterwards the
depth is what it was. The application of a procedure starts a tree with itself on top: its line
comes first, and the others are inside. What is no procedure starts nothing, nor does a machine
without levels. All lines of a forest are indented by at least its depth, and the line of an
application by exactly the depth at which it starts. So in a session in which no call is under way
every run begins without indentation, whatever was run before it and however it ended, and its lines
are those of a forest in preorder. -/
theorem trace_preorder {config : Config} (htracing : config.tracing = true) :
    (∀ levels e env s, ∃ calls, Starts config levels (·.evaluate e env) s calls) ∧
    (∀ levels procedure arguments s, procedure.isProcedure = true → ∃ calls,
      Starts config (levels + 1) (·.apply procedure arguments) s
        [.node procedure arguments calls]) ∧
    (∀ levels procedure arguments s, levels = 0 ∨ procedure.isProcedure = false →
      Starts config levels (·.apply procedure arguments) s []) ∧
    (∀ a : Application, indentation a.line = a.depth) ∧
    (∀ depth calls, ∀ a ∈ preorderAll depth calls, depth ≤ indentation a.line) ∧
    ∀ s : Session, s.config = config → s.state.depth = 0 → ∀ texts source file,
      let before := s.runAll texts
      let after := (before.run source file).2
      before.state.depth = 0 ∧ after.state.depth = 0 ∧ ∃ calls,
        after.state.lines = before.state.lines ++ (preorderAll 0 calls).map Application.line ∧
        ∀ es, Source.read source file = .ok es →
          Starts config before.limit (program · before.global none es) before.state calls := by
  refine ⟨?_, ?_, ?_, Application.indentation_line, ?_, ?_⟩
  · intro levels e env s
    exact (keepsTrace htracing levels).evaluate e env s
  · intro levels procedure arguments s hprocedure
    exact (keepsTrace htracing levels).exists_traces_apply htracing hprocedure arguments s
  · intro levels procedure arguments s hnothing
    exact traces_apply_nil hnothing s
  · intro depth calls a ha
    rw [a.indentation_line]
    exact le_depth_of_mem_preorderAll ha
  · intro s hconfig hdepth texts source file before after
    -- the texts before, whether they failed or not, have put the depth back
    obtain ⟨hconfigs, hdepths⟩ := depth_runAll (hconfig ▸ htracing) texts
    have hbefore : before.state.depth = 0 := hdepths.trans hdepth
    have hsame : before.config = config := hconfigs.trans hconfig
    obtain ⟨calls, hafter, hlines, hstarts⟩ :=
      exists_starts_run before (hsame ▸ htracing) source file
    rw [hbefore] at hlines
    rw [hsame] at hstarts
    exact ⟨hbefore, hafter.trans hbefore, calls, hlines, hstarts⟩

/-- A call that fails inside another one, and after it calls of several arguments, one of which
writes. -/
theorem trace_preorder_after_failure : ∃ s, start SpecialForm.registry true false = .ok s ∧
    let before := s.runAll [("((lambda (x) (car x)) \"a\")", none)]
    let after := (before.run "((lambda (x y) (display (list x y))) \"a\" #t)" none).2
    before.state.lines = ["[trace] (lambda \"a\")", "[trace]   (car \"a\")"] ∧
      before.state.depth = 0 ∧ after.state.depth = 0 ∧ ∃ calls,
        after.state.lines = before.state.lines ++ (preorderAll 0 calls).map Application.line ∧
          (preorderAll 0 calls).map Application.line
            = ["[trace] (lambda \"a\" #t)", "[trace]   (list \"a\" #t)",
                "[trace]   (display (\"a\" #t))"] := by
  obtain ⟨s, hstart, -⟩ := exists_start_bare true
  refine ⟨s, hstart, ?_⟩
  intro before after
  have htracing : s.config.tracing = true := by
    cases hstart
    rfl
  have hdepth : s.state.depth = 0 := by
    cases hstart
    rfl
  -- the first text fails inside a call, and the depth of the second starts at zero again
  have hlines : before.state.lines = ["[trace] (lambda \"a\")", "[trace]   (car \"a\")"] := by
    cases hstart
    decide +kernel
  have hafter : after.state.lines
      = before.state.lines ++ ["[trace] (lambda \"a\" #t)", "[trace]   (list \"a\" #t)",
          "[trace]   (display (\"a\" #t))"] := by
    cases hstart
    decide +kernel
  obtain ⟨-, -, -, -, -, hruns⟩ := trace_preorder htracing
  obtain ⟨hbefore, hend, calls, hcalls, -⟩ := hruns s rfl hdepth
    [("((lambda (x) (car x)) \"a\")", none)] "((lambda (x y) (display (list x y))) \"a\" #t)" none
  exact ⟨hlines, hbefore, hend, calls, hcalls, List.append_cancel_left (hcalls.symm.trans hafter)⟩

end Session

end SmallLisp
