import SmallLisp.Proofs.Run.Record
import SmallLisp.Proofs.Run.Tracing

/-!
# More levels

A machine with more levels differs from one with fewer only in where it gives up. A run that is not
nested too deeply is therefore the same run with more levels, and one that is ends in the middle of
the deeper run: what it recorded is the beginning of what that one records. No form catches the
failure or goes on after it, so a smaller number of levels never turns one answer into another
(`Session.program_more_levels`).

`Eval.PrecedesAt` is this order between two computations that start in the same state. That a
computation adds to the record and does not look at it (`Eval.Records`) is what lets it pass
through a sequence: the shorter run has stopped, and the longer one only adds.
-/

namespace SmallLisp

namespace Eval

variable {α β : Type} {x y z : Eval α} {s : State}

/-- The computation adds to the record and does not look at it. -/
def Records (x : Eval α) : Prop :=
  ∀ earlier, x.Follows (·.after earlier)

theorem finalState_congr (h : x s = y s) : x.finalState s = y.finalState s := by
  rw [finalState, h, finalState]

/-- What is recorded stays recorded. -/
theorem Records.prefix_events (h : x.Records) (s : State) :
    s.events.toList <+: (x.finalState s).events.toList := by
  -- the run with an empty record, behind which what was recorded before can be put
  let blank : State := { s with events := #[] }
  have hblank : blank.after s.events = s := congrArg (s.under s.depth) Array.append_empty
  have hrun : x s = carry (·.after s.events) (x blank) := hblank ▸ h s.events blank
  have hfinal : x.finalState s = (x.finalState blank).after s.events :=
    finalState_of_eq_carry hrun
  have hevents : (x.finalState s).events.toList
      = s.events.toList ++ (x.finalState blank).events.toList := by
    rw [hfinal]
    exact Array.toList_append
  exact ⟨_, hevents.symm⟩

/-- What the first of two computations recorded stays recorded. -/
theorem prefix_events_bind {g : α → Eval β} (hg : ∀ a, (g a).Records) (y : Eval α) (s : State) :
    (y.finalState s).events.toList <+: ((y >>= g).finalState s).events.toList := by
  cases hy : y s with
  | ok a t =>
    rw [finalState_of_ok hy, finalState, bind_of_ok hy]
    exact (hg a).prefix_events t
  | error failure t =>
    have hsame : (y >>= g).finalState s = y.finalState s :=
      (finalState_of_error (bind_of_error hy g)).trans (finalState_of_error hy).symm
    exact hsame ▸ List.prefix_rfl

/-! ### The order of runs -/

/-- Run in the state `s`, the first computation does what the second one does, unless it is nested
too deeply. Then what it records is the beginning of what the second one records. -/
def PrecedesAt (s : State) (x y : Eval α) : Prop :=
  x s = y s ∨
    Exhausted (x s) ∧ (x.finalState s).events.toList <+: (y.finalState s).events.toList

theorem PrecedesAt.of_eq (h : x s = y s) : PrecedesAt s x y := .inl h

/-- The order depends on what the two computations do from there only. -/
theorem PrecedesAt.congr {x' y' : Eval α} {t : State} (hx : x s = x' t) (hy : y s = y' t)
    (h : PrecedesAt t x' y') : PrecedesAt s x y := by
  rw [PrecedesAt, finalState, finalState, hx, hy]
  exact h

theorem PrecedesAt.eq_of_not_exhausted (h : PrecedesAt s x y) (hx : ¬ Exhausted (x s)) :
    y s = x s :=
  (h.resolve_right fun hcut => hx hcut.1).symm

theorem PrecedesAt.prefix_events (h : PrecedesAt s x y) :
    (x.finalState s).events.toList <+: (y.finalState s).events.toList := by
  rcases h with hsame | ⟨-, hprefix⟩
  · exact finalState_congr hsame ▸ List.prefix_rfl
  · exact hprefix

/-- A run that is cut off before it records anything comes before every other one. -/
theorem PrecedesAt.of_exhausted {t : State} (hx : x s = .error .exhausted t)
    (hevents : t.events = s.events) (hy : y.Records) : PrecedesAt s x y := by
  refine .inr ⟨⟨t, hx⟩, ?_⟩
  rw [finalState_of_error hx, hevents]
  exact hy.prefix_events s

theorem PrecedesAt.trans (hxy : PrecedesAt s x y) (hyz : PrecedesAt s y z) : PrecedesAt s x z := by
  rcases hxy with hsame | ⟨hcut, hprefix⟩
  · rw [PrecedesAt, finalState_congr hsame, hsame]
    exact hyz
  · exact .inr ⟨hcut, hprefix.trans hyz.prefix_events⟩

/-- One computation after another: the first ones, and the second ones wherever the first ones come
to the same end. -/
theorem PrecedesAt.bind {f g : α → Eval β} (hxy : PrecedesAt s x y)
    (hfg : ∀ a t, y s = .ok a t → PrecedesAt t (f a) (g a)) (hg : ∀ a, (g a).Records) :
    PrecedesAt s (x >>= f) (y >>= g) := by
  rcases hxy with hsame | ⟨⟨t, hx⟩, hprefix⟩
  · cases hy : y s with
    | ok a t =>
      have hx : x s = .ok a t := hsame.trans hy
      exact (hfg a t hy).congr (bind_of_ok hx f) (bind_of_ok hy g)
    | error failure t =>
      have hx : x s = .error failure t := hsame.trans hy
      exact .of_eq ((bind_of_error hx f).trans (bind_of_error hy g).symm)
  · -- the shorter run has stopped, the longer one may go on
    have hbind := bind_of_error hx f
    refine .inr ⟨⟨t, hbind⟩, ?_⟩
    rw [finalState_of_error hbind, ← finalState_of_error hx]
    exact hprefix.trans (prefix_events_bind hg y s)

end Eval

open Eval

/-- The record of an application stands before what the application records. -/
theorem Machine.precedesAt_traced (config : Config) (name : String) (arguments : List Value)
    {x y : Eval Value} (h : ∀ s, PrecedesAt s x y) (s : State) :
    PrecedesAt s (traced config name arguments x) (traced config name arguments y) := by
  by_cases htracing : config.tracing = true
  · rcases h (s.entering name arguments) with hsame | ⟨⟨t, hx⟩, hprefix⟩
    · refine .of_eq ?_
      rw [traced_eq htracing, traced_eq htracing, hsame]
    · have hcut : traced config name arguments x s = .error .exhausted t.leaving := by
        rw [traced_eq htracing, hx]
        rfl
      -- counting the call as over leaves the record as it is
      have hevents : ((traced config name arguments y).finalState s).events
          = (y.finalState (s.entering name arguments)).events := by
        rw [finalState_of_eq_carry (traced_eq htracing name arguments y s)]
        rfl
      refine .inr ⟨⟨_, hcut⟩, ?_⟩
      rw [finalState_of_error hcut, hevents]
      rw [finalState_of_error hx] at hprefix
      exact hprefix
  · have hplain : ∀ call, traced config name arguments call = call := fun _ => if_neg htracing
    rw [hplain, hplain]
    exact h s

/-! ### Machines with more levels -/

/-- **The order of runs is a comparison.** -/
def Comparison.levels (config : Config) : Comparison config config where
  Rel x y := (∀ s, PrecedesAt s x y) ∧ y.Records
  silent hx := ⟨fun _ => .of_eq rfl, fun earlier => hx.follows_after earlier⟩
  output text := ⟨fun _ => .of_eq rfl, fun earlier => follows_emit (.output text) earlier⟩
  bind := by
    rintro α β x y f g ⟨hxy, hy⟩ hfg
    refine ⟨fun s => (hxy s).bind (fun a t _ => (hfg a).1 t) fun a => (hfg a).2, ?_⟩
    exact fun earlier => (hy earlier).bind fun a => (hfg a).2 earlier
  traced := by
    rintro name arguments x y ⟨hxy, hy⟩
    refine ⟨Machine.precedesAt_traced config name arguments hxy, ?_⟩
    exact fun earlier => Machine.follows_traced config name arguments (hy earlier)

theorem Machine.records_evaluate (config : Config) (levels : Nat) (e : Value) (env : Env) :
    ((machine config levels).evaluate e env).Records :=
  fun earlier =>
    (((Comparison.recorded config earlier).machines_machine rfl levels).evaluate e env).2

theorem Machine.records_apply (config : Config) (levels : Nat) (procedure : Value)
    (arguments : List Value) : ((machine config levels).apply procedure arguments).Records :=
  fun earlier =>
    (((Comparison.recorded config earlier).machines_machine rfl levels).apply procedure arguments).2

/-- Without levels nothing is recorded. -/
theorem Machine.precedesAt_exhausted {y : Eval Value} (hy : y.Records) (e : Value) (env : Env)
    (s : State) : PrecedesAt s (exhausted.evaluate e env) y :=
  .inr ⟨⟨_, rfl⟩, hy.prefix_events s⟩

/-- A machine with fewer levels comes before one with more. -/
theorem Comparison.machines_levels (config : Config) {n m : Nat} (hnm : n ≤ m) :
    (levels config).Machines (machine config n) (machine config m) := by
  induction n generalizing m with
  -- without levels there is nothing but the failure, at the events so far
  | zero =>
    constructor
    · intro e env
      have hrecords := Machine.records_evaluate config m e env
      exact ⟨Machine.precedesAt_exhausted hrecords e env, hrecords⟩
    · intro procedure arguments
      have hrecords := Machine.records_apply config m procedure arguments
      exact ⟨fun s => .of_exhausted rfl rfl hrecords, hrecords⟩
  | succ n ih =>
    obtain ⟨m, rfl⟩ := Nat.exists_eq_add_of_le' hnm
    have hmachines := ih (m := m + n) (Nat.le_add_left n m)
    exact ⟨Congruence.evaluateStep hmachines rfl, Comparison.applyStep hmachines⟩

/-- What asks a machine comes, over a machine with fewer levels, before what it is over one with
more. -/
theorem Machine.Asks.precedesAt {α : Type} {x : Machine → Eval α} (hx : Asks x) (config : Config)
    {n m : Nat} (hnm : n ≤ m) (s : State) :
    PrecedesAt s (x (machine config n)) (x (machine config m)) :=
  (Congruence.rel_of_asks (Comparison.machines_levels config hnm) hx).1 s

theorem Machine.Asks.records {α : Type} {x : Machine → Eval α} (hx : Asks x) (config : Config)
    (levels : Nat) : (x (machine config levels)).Records :=
  (Congruence.rel_of_asks (Comparison.machines_levels config (Nat.le_refl levels)) hx).2

/-- **More levels make a difference only to runs that are nested too deeply.** A program whose run
is not nested too deeply ends with more levels in the same value or in the same failure, with the
same frames, record and registry. If its run is nested too deeply, then what it recorded up to there
is the beginning of what is recorded with more levels. -/
theorem Session.program_more_levels (config : Config) {n m : Nat} (hnm : n ≤ m) (env : Env)
    (last : Option Value) (es : List Value) (s : State) :
    let shallow := program (SmallLisp.machine config n) env last es
    let deep := program (SmallLisp.machine config m) env last es
    (¬ Exhausted (shallow s) → deep s = shallow s) ∧
      (Exhausted (shallow s) →
        (shallow.finalState s).events.toList <+: (deep.finalState s).events.toList) := by
  intro shallow deep
  have hprecedes : PrecedesAt s shallow deep := (asks_program env last es).precedesAt config hnm s
  exact ⟨hprecedes.eq_of_not_exhausted, fun _ => hprecedes.prefix_events⟩

/-- Two applications, of which the second one is nested more deeply: three levels are enough for the
first text only, four for both. -/
theorem Session.program_more_levels_display :
    ∃ s es, start SpecialForm.registry true false = .ok s ∧
    Source.read "(display \"a\") ((lambda (x) (display x)) \"b\")" none = .ok es ∧
    let run := fun levels => program (SmallLisp.machine ⟨Derived.all, true⟩ levels) s.global none es
    3 ≤ 5 ∧ 4 ≤ 5 ∧ Exhausted (run 3 s.state) ∧ ¬ Exhausted (run 4 s.state) ∧
      ((run 3).finalState s.state).events.toList <+: ((run 5).finalState s.state).events.toList ∧
      run 5 s.state = run 4 s.state := by
  obtain ⟨s, hstart, -⟩ := exists_start_bare true
  have hread : Source.read "(display \"a\") ((lambda (x) (display x)) \"b\")" none
      = .ok [.ofList [.symbol "display", .string "a"],
          .ofList [.ofList [.symbol "lambda", .ofList [.symbol "x"],
            .ofList [.symbol "display", .symbol "x"]], .string "b"]] := by cbv
  refine ⟨s, _, hstart, hread, ?_⟩
  intro run
  -- three levels end in the second application, after the first text was put out
  have hshallow : Exhausted (run 3 s.state) := by
    cases hstart
    decide +kernel
  have hdeep : ¬ Exhausted (run 4 s.state) := by
    cases hstart
    decide +kernel
  have h35 : 3 ≤ 5 := by decide
  have h45 : 4 ≤ 5 := by decide
  exact ⟨h35, h45, hshallow, hdeep,
    (program_more_levels ⟨Derived.all, true⟩ h35 s.global none _ s.state).2 hshallow,
    (program_more_levels ⟨Derived.all, true⟩ h45 s.global none _ s.state).1 hdeep⟩

end SmallLisp
