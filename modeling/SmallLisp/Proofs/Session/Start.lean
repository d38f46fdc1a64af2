import SmallLisp.Proofs.Run.Levels
import SmallLisp.Proofs.Session.Composition

/-!
# Sessions start

A session over the core forms starts, with the prelude or without, however many levels of nesting it
allows (`Session.exists_startAt`). The prelude does nothing but define procedures, for which one
level is enough, and a text that runs to its end does the same with more levels
(`Session.load_of_le`). So the prelude is run once, in a session of one level, and every other
session follows from that one.
-/

namespace SmallLisp.Session

open Eval

variable {s t : Session} {limit : Nat}

/-- A text is loaded if it can be read and its expressions run to their end. -/
theorem load_eq_ok_iff {source : String} {file : Option String} :
    s.load source file = .ok t ↔ ∃ es v u, Source.read source file = .ok es ∧
      program s.machine s.global none es s.state = .ok v u ∧ { s with state := u } = t := by
  rw [load]
  cases hread : Source.read source file with
  | error failure => simp [run_of_read_error hread]
  | ok es =>
    rw [run_of_read hread, perform]
    cases hrun : program s.machine s.global none es s.state with
    | error failure u => simp [hrun]
    | ok v u => simp [hrun]

/-- A text that runs to its end does so in a session that allows more levels, and leaves the same
session but for the levels. -/
theorem load_of_le {source : String} {file : Option String} (hle : s.limit ≤ limit)
    (h : s.load source file = .ok t) :
    load { s with limit } source file = .ok { t with limit } := by
  obtain ⟨es, v, u, hread, hrun, rfl⟩ := load_eq_ok_iff.1 h
  have hends : ¬ Exhausted (program s.machine s.global none es s.state) := by
    rw [hrun]
    rintro ⟨_, hcut⟩
    cases hcut
  have hmore := (program_more_levels s.config hle s.global none es s.state).1 hends
  exact load_eq_ok_iff.2 ⟨es, v, u, hread, hmore.trans hrun, rfl⟩

/-- A session without the prelude is the same whatever it allows, but for that. -/
theorem bareAt_of_bareAt {config : Config} {registry : Registry SpecialForm} {least : Nat}
    (h : bareAt least config registry = .ok s) (limit : Nat) :
    s.limit = least ∧ bareAt limit config registry = .ok { s with limit } := by
  rw [bareAt] at h ⊢
  split at h
  · cases h
    exact ⟨rfl, rfl⟩
  · cases h

set_option maxRecDepth 4000 in
/-- **Sessions start, and they start sound**, however many levels of nesting they allow. -/
theorem exists_startAt (limit : Nat) (tracing prelude : Bool) :
    ∃ s, startAt (limit + 1) SpecialForm.registry tracing prelude = .ok s ∧ s.Sound := by
  let config : Config := { derived := Derived.all, tracing }
  cases prelude with
  | false => exact exists_bareAt (limit + 1) config SpecialForm.registry rfl
  | true =>
    let test : Session → Bool := fun _ => true
    have hone : ∃ s, startAt 1 SpecialForm.registry tracing true = .ok s ∧ s.Sound ∧
        test s = true := by
      -- the characters are those of the literal: the kernel would take long to decode the text
      refine exists_startAt_of_runsTo String.toList_ofList fun b hb => ?_
      cases tracing <;> cases hb <;> decide +kernel
    obtain ⟨s, hs, hsound, -⟩ := hone
    obtain ⟨b, hb, hload⟩ := bind_eq_ok_iff.1 (show (bareAt 1 config SpecialForm.registry >>=
      fun b => b.load Prelude.source Prelude.file) = .ok s from hs)
    -- one level was enough, so the prelude does the same with more
    obtain ⟨hlimit, hbare⟩ := bareAt_of_bareAt hb (limit + 1)
    have hmore := load_of_le (show b.limit ≤ limit + 1 by omega) hload
    refine ⟨{ s with limit := limit + 1 }, ?_,
      ⟨hsound.holds, hsound.defined, hsound.forms, hsound.global⟩⟩
    exact bind_eq_ok_iff.2 ⟨_, hbare, hmore⟩

end SmallLisp.Session
