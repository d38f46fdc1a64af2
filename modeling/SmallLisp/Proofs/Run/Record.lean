import SmallLisp.Proofs.Run.Comparison

/-!
# The record of a run

A run adds to the record and never looks at it: after anything that was recorded before, it does the
same, and what it records stands behind (`Comparison.recorded`). So a run does not depend on whether
the record was kept or forgotten when it began.
-/

namespace SmallLisp

/-- The state with something recorded before everything else. -/
def State.after (s : State) (earlier : Array Event) : State :=
  { s with events := earlier ++ s.events }

namespace Eval

variable {α : Type} {x y : Eval α} {earlier : Array Event}

/-- A silent computation leaves what is recorded as it is. -/
theorem IsSilent.follows_after (h : x.IsSilent) (earlier : Array Event) :
    x.Follows (·.after earlier) :=
  h.follows_under id (earlier ++ ·)

theorem follows_emit (event : Event) (earlier : Array Event) :
    (emit event).Follows (·.after earlier) := by
  intro s
  have hpush : (earlier ++ s.events).push event = earlier ++ s.events.push event :=
    (Array.append_push ..).symm
  change EStateM.Result.ok () { s with events := (earlier ++ s.events).push event } = _
  rw [hpush]
  rfl

theorem Follows.deeper (h : x.Follows (·.after earlier)) :
    (Eval.deeper x).Follows (·.after earlier) := by
  intro s
  have hx : x { s.after earlier with depth := s.depth + 1 }
      = carry (·.after earlier) (x { s with depth := s.depth + 1 }) :=
    h { s with depth := s.depth + 1 }
  -- both put the depth back by one, whatever was recorded
  rw [deeper_eq, deeper_eq]
  change carry _ (x { s.after earlier with depth := s.depth + 1 }) = _
  rw [hx]
  cases x { s with depth := s.depth + 1 } with
  | ok a t => rfl
  | error failure t => rfl

end Eval

open Eval

/-- Tracing depends on the depth and adds to the record. -/
theorem Machine.follows_traced {call : Eval Value} {earlier : Array Event} (config : Config)
    (name : String) (arguments : List Value) (h : call.Follows (·.after earlier)) :
    (traced config name arguments call).Follows (·.after earlier) := by
  unfold traced
  split
  · intro s
    have hline := (follows_emit (.trace (traceLine s.depth name arguments)) earlier).bind
      fun _ => h.deeper
    exact hline s
  · exact h

/-- **Runs add to the record and do not look at it.** -/
def Comparison.recorded (config : Config) (earlier : Array Event) : Comparison config config where
  Rel x y := x = y ∧ x.Follows (·.after earlier)
  silent h := ⟨rfl, h.follows_after earlier⟩
  output text := ⟨rfl, follows_emit (.output text) earlier⟩
  bind := by
    rintro α β x y f g ⟨rfl, hx⟩ hfg
    have hsame : f = g := funext fun a => (hfg a).1
    exact ⟨hsame ▸ rfl, hx.bind fun a => (hfg a).2⟩
  traced := by
    rintro name arguments x y ⟨rfl, hx⟩
    exact ⟨rfl, Machine.follows_traced config name arguments hx⟩

end SmallLisp
