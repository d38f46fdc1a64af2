import Mathlib.Data.List.Permutation
import SmallLisp.Proofs.Run.Comparison
import SmallLisp.Proofs.Session.Invariant

/-!
# Tracing does not interfere

An evaluation looks at how deep its calls are nested only to indent a line of the trace, and at the
record not at all. Two runs of one program, one with a trace and the other without, therefore go the
same way: they end in the same value or in the same failure, and in the same state but for the trace
(`Session.program_untraced`). `State.untraced` is what is left of a state without its trace.

The runs are compared through `Comparison.untraced`. It may leave runs aside that are nested too
deeply, so that the two machines need not have the same number of levels.
-/

namespace SmallLisp

/-- Whether the event is text that the program writes. -/
def Event.isOutput : Event → Bool
  | .output _ => true
  | .trace _ => false

/-- The state without its trace: no call under way, and nothing recorded but output. -/
def State.untraced (s : State) : State :=
  s.under 0 (s.events.filter Event.isOutput)

namespace Eval

variable {α : Type} {x : Eval α}

/-- The evaluation ended because it was nested too deeply. -/
def Exhausted (r : EStateM.Result Failure State α) : Prop :=
  ∃ t, r = .error .exhausted t

instance (r : EStateM.Result Failure State α) : Decidable (Exhausted r) :=
  match r with
  | .ok _ _ => isFalse fun h => nomatch h
  | .error failure t =>
    if h : failure = .exhausted then isTrue ⟨t, congrArg (EStateM.Result.error · t) h⟩
    else isFalse fun ⟨_, ht⟩ => h (EStateM.Result.error.inj ht).1

/-- Counting a call as over makes no difference where the depth is left aside. -/
theorem carry_untraced_leaving (r : EStateM.Result Failure State α) :
    carry State.untraced (carry State.leaving r) = carry State.untraced r := by
  cases r with
  | ok a t => rfl
  | error failure t => rfl

theorem IsSilent.follows_untraced (h : x.IsSilent) : x.Follows State.untraced :=
  h.follows_under (fun _ => 0) (·.filter Event.isOutput)

theorem follows_untraced_output (text : String) :
    (emit (.output text)).Follows State.untraced := by
  intro s
  have hpush : (s.events.push (.output text)).filter Event.isOutput
      = (s.events.filter Event.isOutput).push (.output text) :=
    Array.filter_push_of_pos rfl (Array.size_push _)
  show _ = EStateM.Result.ok () (s.under 0 ((s.events.push (.output text)).filter Event.isOutput))
  rw [hpush]
  rfl

end Eval

open Eval

/-- The line of an application is trace. -/
theorem State.untraced_entering (s : State) (name : String) (arguments : List Value) :
    (s.entering name arguments).untraced = s.untraced := by
  have hfilter : (s.entering name arguments).events.filter Event.isOutput
      = s.events.filter Event.isOutput :=
    Array.filter_push_of_neg nofun (Array.size_push _)
  show (s.entering name arguments).under 0 _ = _
  rw [hfilter]
  rfl

/-- What is recorded of an application is trace, and so is the count of its call: without its trace
the application is the call, run in a state that is the same without its trace. -/
theorem Machine.exists_untraced_call (config : Config) (name : String) (arguments : List Value)
    (call : Eval Value) (s : State) : ∃ s₀, s₀.untraced = s.untraced ∧
      carry State.untraced (traced config name arguments call s) = carry State.untraced (call s₀) ∧
      (Exhausted (call s₀) → Exhausted (traced config name arguments call s)) := by
  -- the call runs in the state behind its line, which without the trace is the same state
  by_cases htracing : config.tracing = true
  · rw [traced_eq htracing]
    refine ⟨s.entering name arguments, s.untraced_entering name arguments,
      carry_untraced_leaving _, ?_⟩
    rintro ⟨t, ht⟩
    exact ⟨t.leaving, by rw [ht]; rfl⟩
  · have hplain : traced config name arguments call = call := if_neg htracing
    rw [hplain]
    exact ⟨s, rfl, rfl, id⟩

/-- **Runs without their trace**: from states that are the same without their trace, both runs come
to the same end. If `cut` is allowed, nothing is said of a run that is nested too deeply. -/
def Comparison.untraced (cut : Prop) (config config' : Config) : Comparison config config' where
  Rel x y := ∀ s t, s.untraced = t.untraced →
    cut ∧ Exhausted (x s) ∨ carry State.untraced (x s) = carry State.untraced (y t)
  silent hx s t hst := by
    rw [← hx.follows_untraced s, ← hx.follows_untraced t, hst]
    exact .inr rfl
  output text s t hst := by
    rw [← follows_untraced_output text s, ← follows_untraced_output text t, hst]
    exact .inr rfl
  bind := by
    intro α β x y f g hxy hfg s t hst
    change cut ∧ Exhausted (EStateM.bind x f s) ∨
      carry _ (EStateM.bind x f s) = carry _ (EStateM.bind y g t)
    unfold EStateM.bind
    -- a run that was cut off stays cut off; otherwise both have gone on alike
    rcases hxy s t hst with ⟨hcut, u, hu⟩ | hsame
    · rw [hu]
      exact .inl ⟨hcut, u, rfl⟩
    · cases hx : x s with
      | ok a u =>
        cases hy : y t with
        | ok b v =>
          -- both go on with the same value, in states that are the same without their trace
          rw [hx, hy] at hsame
          obtain ⟨rfl, huv⟩ := EStateM.Result.ok.inj hsame
          exact hfg a u v huv
        | error failure v =>
          rw [hx, hy] at hsame
          cases hsame
      | error failure u =>
        cases hy : y t with
        | ok b v =>
          rw [hx, hy] at hsame
          cases hsame
        | error failure' v =>
          rw [hx, hy] at hsame
          obtain ⟨rfl, huv⟩ := EStateM.Result.error.inj hsame
          exact .inr (congrArg (EStateM.Result.error failure) huv)
  traced := by
    intro name arguments x y hxy s t hst
    obtain ⟨s₀, hs₀, hs, hcut⟩ := Machine.exists_untraced_call config name arguments x s
    obtain ⟨t₀, ht₀, ht, -⟩ := Machine.exists_untraced_call config' name arguments y t
    rw [hs, ht]
    rcases hxy s₀ t₀ (hs₀.trans (hst.trans ht₀.symm)) with ⟨hallowed, hexhausted⟩ | hsame
    · exact .inl ⟨hallowed, hcut hexhausted⟩
    · exact .inr hsame

/-- Where runs that are nested too deeply are left aside, more levels make no difference. -/
theorem Comparison.machines_untraced {config config' : Config}
    (h : config.derived = config'.derived) {n m : Nat} (hnm : n ≤ m) :
    (untraced True config config').Machines (machine config n) (machine config' m) := by
  induction n generalizing m with
  | zero =>
    -- without levels every run is nested too deeply
    constructor
    · intro e env s t _
      exact .inl ⟨trivial, _, rfl⟩
    · intro procedure arguments s t _
      exact .inl ⟨trivial, _, rfl⟩
  | succ n ih =>
    obtain ⟨m, rfl⟩ := Nat.exists_eq_add_of_le' hnm
    have hmachines := ih (m := m + n) (Nat.le_add_left n m)
    exact ⟨Congruence.evaluateStep hmachines h, Comparison.applyStep hmachines⟩

/-- **Tracing does not interfere.** From states that are the same without their trace, a program
that is run with a trace and without one ends in the same value or in the same failure, and in
states that are the same without their trace: with the same frames, the same objects in them, the
same registry and the same output. Either both machines have the same number of levels, or neither
run is nested too deeply. -/
theorem Session.program_untraced (derived : List Derived) (n m : Nat) (env : Env)
    (last : Option Value) (es : List Value) {s t : State} (hst : s.untraced = t.untraced) :
    let withTrace := program (SmallLisp.machine { derived, tracing := true } n) env last es s
    let without := program (SmallLisp.machine { derived, tracing := false } m) env last es t
    n = m ∨ ¬ Exhausted withTrace ∧ ¬ Exhausted without →
      carry State.untraced withTrace = carry State.untraced without := by
  intro withTrace without hlevels
  let traced : Config := { derived, tracing := true }
  let plain : Config := { derived, tracing := false }
  have hderived : traced.derived = plain.derived := rfl
  rcases hlevels with rfl | ⟨hwith, hwithout⟩
  · have hmachines := (Comparison.untraced False traced plain).machines_machine hderived n
    have hprogram := Congruence.program hmachines env last es s t hst
    exact hprogram.resolve_left fun hcut => hcut.1
  · -- the run with fewer levels is the one that could be cut short
    rcases Nat.le_total n m with hnm | hmn
    · have hmachines := Comparison.machines_untraced hderived hnm
      have hprogram := Congruence.program hmachines env last es s t hst
      exact hprogram.resolve_left fun hcut => hwith hcut.2
    · have hmachines := Comparison.machines_untraced hderived.symm hmn
      have hprogram := Congruence.program hmachines env last es t s hst.symm
      exact (hprogram.resolve_left fun hcut => hwithout hcut.2).symm

/-- The application of a procedure that writes its argument: two lines of trace, and one output. -/
theorem Session.program_untraced_display : ∃ s es, start SpecialForm.registry true false = .ok s ∧
    Source.read "((lambda (x) (display x)) \"a\")" none = .ok es ∧
    let withTrace := program (SmallLisp.machine ⟨Derived.all, true⟩ 4) s.global none es s.state
    let without := program (SmallLisp.machine ⟨Derived.all, false⟩ 5) s.global none es s.state
    ¬ Exhausted withTrace ∧ ¬ Exhausted without ∧
      carry State.untraced withTrace = carry State.untraced without := by
  obtain ⟨s, hstart, -⟩ := exists_start_bare true
  have hread : Source.read "((lambda (x) (display x)) \"a\")" none
      = .ok [.ofList [.ofList [.symbol "lambda", .ofList [.symbol "x"],
          .ofList [.symbol "display", .symbol "x"]], .string "a"]] := by cbv
  refine ⟨s, _, hstart, hread, ?_⟩
  intro withTrace without
  have hwith : ¬ Exhausted withTrace := by
    cases hstart
    decide +kernel
  have hwithout : ¬ Exhausted without := by
    cases hstart
    decide +kernel
  refine ⟨hwith, hwithout, ?_⟩
  exact program_untraced Derived.all 4 5 s.global none _ rfl (.inr ⟨hwith, hwithout⟩)

end SmallLisp
