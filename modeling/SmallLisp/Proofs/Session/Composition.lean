import SmallLisp.Proofs.Run.Record
import SmallLisp.Proofs.Session.Invariant
import SmallLisp.Proofs.Source.Joining

/-!
# Runs one after the other

Running two texts one below the other is running the first one and then, if it came to its end, the
second one (`Session.run_append_line`). In between nothing is kept but the state, so it does not
matter either whether what was written is forgotten (`Session.run_after`). A text that cannot be
read does nothing, whatever of it could have been run (`Session.run_composes`).
-/

namespace SmallLisp.Session

open Source

/-! ### Programs -/

theorem program_append (m : Machine) (env : Env) (last : Option Value) (es fs : List Value) :
    program m env last (es ++ fs)
      = program m env last es >>= fun v => program m env v fs := by
  induction es generalizing last with
  | nil => rfl
  | cons e es ih =>
    rw [List.cons_append, program, program, bind_assoc]
    refine bind_congr fun settled => ?_
    rw [bind_assoc]
    exact bind_congr fun v => ih (some v)

/-- Once there is a value, it does not matter what the value was before. -/
theorem program_some_bind (m : Machine) (env : Env) (v : Value) (last : Option Value)
    (es : List Value) :
    (program m env (some v) es >>= fun w => pure (w.or last)) = program m env (some v) es := by
  induction es generalizing v with
  | nil => rfl
  | cons e es ih =>
    rw [program, bind_assoc]
    refine bind_congr fun settled => ?_
    rw [bind_assoc]
    exact bind_congr fun w => ih w

/-- The value before the first expression is that of a program without expressions, and plays no
other part. -/
theorem program_eq_bind (m : Machine) (env : Env) (last : Option Value) (es : List Value) :
    program m env last es = program m env none es >>= fun w => pure (w.or last) := by
  cases es with
  | nil => rfl
  | cons e es =>
    rw [program, program, bind_assoc]
    refine bind_congr fun settled => ?_
    rw [bind_assoc]
    exact bind_congr fun v => (program_some_bind m env v last es).symm

/-! ### Sessions -/

theorem perform_bind {α β : Type} (s : Session) (x : Eval α) (f : α → Eval β) :
    s.perform (x >>= f)
      = match s.perform x with
        | (.ok a, t) => t.perform (f a)
        | (.error failure, t) => (.error failure, t) := by
  have hbind : (x >>= f) s.state = EStateM.bind x f s.state := rfl
  rw [perform, hbind, EStateM.bind, perform]
  cases x s.state with
  | ok a t => rfl
  | error failure t => rfl

theorem run_of_read {source : String} {file : Option String} {es : List Value}
    (h : read source file = .ok es) (s : Session) :
    s.run source file = s.perform (program s.machine s.global none es) := by
  rw [run, h]

/-- A program that goes on from a value. -/
theorem perform_program (s : Session) (m : Machine) (env : Env) (last : Option Value)
    (es : List Value) :
    s.perform (program m env last es)
      = ((s.perform (program m env none es)).1.map (·.or last),
          (s.perform (program m env none es)).2) := by
  rw [program_eq_bind, perform_bind]
  rcases s.perform (program m env none es) with ⟨failure | v, t⟩
  · rfl
  · rfl

/-- **Running two texts one below the other** is running the first one and then, if it came to its
end, the second one. The value is that of the second text, or of the first one if there are no
expressions in the second. -/
theorem run_append_line {a b : String} {file : Option String} {vs ws : List Value}
    (ha : read a file = .ok vs) (hb : read b file = .ok ws) (s : Session) :
    s.run (a ++ "\n" ++ b) file
      = match s.run a file with
        | (.ok v, t) => ((t.run b file).1.map (·.or v), (t.run b file).2)
        | (.error failure, t) => (.error failure, t) := by
  -- both texts can be read, so the joined text is the one and then the other
  have hread : read (a ++ "\n" ++ b) file = .ok (vs ++ ws) := by
    rw [read_append_eq ha, hb]
    rfl
  rw [run_of_read hread, program_append, perform_bind, run_of_read ha, perform]
  cases program s.machine s.global none vs s.state with
  | ok v state =>
    dsimp only
    rw [run_of_read hb]
    exact perform_program _ _ _ v ws
  | error failure state => rfl

/-- A text that cannot be read is reported and leaves the session as it was. -/
theorem run_of_read_error {source : String} {file : Option String} {failure : Failure}
    (h : read source file = .error failure) (s : Session) :
    s.run source file = (.error failure, s) := by
  rw [run, h]

/-- **Runs compose, and what cannot be read does nothing.** If two texts can be read, then running
them one below the other is running the first one and then, if it came to its end, the second one,
with the same frames, record and registry after it and the same value or failure: the value is that
of the second text, or of the first one if there are no expressions in the second. Of a text that
cannot be read the fault of reading is reported, and the session is what it was, also where the text
begins with expressions that could have been evaluated. -/
theorem run_composes (s : Session) (file : Option String) :
    (∀ a b vs ws, read a file = .ok vs → read b file = .ok ws →
      s.run (a ++ "\n" ++ b) file
        = match s.run a file with
          | (.ok v, t) => ((t.run b file).1.map (·.or v), (t.run b file).2)
          | (.error failure, t) => (.error failure, t)) ∧
      ∀ source failure, read source file = .error failure →
        s.run source file = (.error failure, s) :=
  ⟨fun _ _ _ _ ha hb => run_append_line ha hb s, fun _ _ h => run_of_read_error h s⟩

/-- A definition with a comment behind it, then a use of the name; and a text that breaks off after
a definition that is complete. -/
theorem run_composes_definition : ∃ s vs ws failure,
    start SpecialForm.registry true false = .ok s ∧
    read "(define x \"a\") ; one" none = .ok vs ∧ read "(display x)" none = .ok ws ∧
    read "(define x \"b\") (display" none = .error failure ∧
    (s.run ("(define x \"a\") ; one" ++ "\n" ++ "(display x)") none
      = match s.run "(define x \"a\") ; one" none with
        | (.ok v, t) => ((t.run "(display x)" none).1.map (·.or v), (t.run "(display x)" none).2)
        | (.error failure, t) => (.error failure, t)) ∧
    s.run "(define x \"b\") (display" none = (.error failure, s) := by
  obtain ⟨s, hstart, -⟩ := exists_start_bare true
  have ha : read "(define x \"a\") ; one" none
      = .ok [.ofList [.symbol "define", .symbol "x", .string "a"]] := by cbv
  have hb : read "(display x)" none = .ok [.ofList [.symbol "display", .symbol "x"]] := by cbv
  -- nothing of the third text is run, though its first form could be read
  have hc : read "(define x \"b\") (display" none
      = .error (.read .unexpectedEnd (some ⟨1, 24, none⟩)) := by cbv
  obtain ⟨hboth, hnone⟩ := run_composes s none
  exact ⟨s, _, _, _, hstart, ha, hb, hc, hboth _ _ _ _ ha hb, hnone _ _ hc⟩

/-- The session with something recorded before everything else. -/
def after (s : Session) (earlier : Array Event) : Session :=
  { s with state := s.state.after earlier }

theorem after_drain (s : Session) : s.drain.after s.state.events = s := by
  rw [after, drain, State.after, Array.append_empty]

theorem events_after (s : Session) (earlier : Array Event) :
    (s.after earlier).events = earlier.toList ++ s.events :=
  Array.toList_append

theorem perform_after {α : Type} {x : Eval α} {earlier : Array Event}
    (h : x.Follows (·.after earlier)) (s : Session) :
    (s.after earlier).perform x = ((s.perform x).1, (s.perform x).2.after earlier) := by
  have hx : x (s.after earlier).state = Eval.carry (·.after earlier) (x s.state) := h s.state
  rw [perform, hx]
  rw [perform]
  cases x s.state with
  | ok a t => rfl
  | error failure t => rfl

/-- **A run does not look at what was written before it.** -/
theorem run_after (s : Session) (earlier : Array Event) (source : String) (file : Option String) :
    (s.after earlier).run source file
      = ((s.run source file).1, (s.run source file).2.after earlier) := by
  cases hread : read source file with
  | error failure =>
    rw [run, run, hread]
  | ok es =>
    -- what was recorded before stays in front, and nothing looks at it
    let C := Comparison.recorded s.config earlier
    have hfollows : (program s.machine s.global none es).Follows (·.after earlier) :=
      (Congruence.program (C.machines_machine rfl s.limit) s.global none es).2
    rw [run_of_read hread, run_of_read hread]
    exact perform_after hfollows s

end SmallLisp.Session
