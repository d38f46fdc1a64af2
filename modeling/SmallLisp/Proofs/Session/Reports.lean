import SmallLisp.Proofs.Run.Calls
import SmallLisp.Proofs.Session.Start

/-!
# What sessions report

A session over the core forms is orderly between any two runs, so most of the ways in which a run
could fail are closed: no procedure without a body is ever called, no expression but the empty list
is of an unknown kind, no form of an embedding program takes part, and a definition always has a
frame to go to. What is left is `Session.Reports`. A text that cannot be read is reported with a
place, and nothing has happened. Any other failure is a fault of evaluation, with the grounds for it
(`Session.Grounds`): the run made a call that is at fault (`Session.Calls`), and there the name is
bound nowhere, the expression is the empty list, or the procedure is the primitive `error`.

The grounds come from two facts. A failure is raised by some call of the run, in the state in which
the run ends (`Machine.calls_of_failure`), and a call raises few failures in the state of a sound
session (`Discipline.Raises`).
-/

namespace SmallLisp

/-! ### The core forms -/

namespace SpecialForm

theorem mem_core_of_registered {tag : String} {form : SpecialForm}
    (h : registry.handlers.get? tag = some form) : (tag, form) ∈ core :=
  Table.mem_entries_of_get? h

/-- No core form is one of an embedding program. -/
theorem registered_ne_host {tag : String} (form : HostForm) :
    registry.handlers.get? tag ≠ some (.host form) := by
  intro h
  have hmem := mem_core_of_registered h
  simp [core] at hmem

theorem eq_of_registered_assign {tag : String} (h : registry.handlers.get? tag = some .assign) :
    tag = "set!" := by
  have hmem := mem_core_of_registered h
  simpa [core] using hmem

end SpecialForm

/-! ### What a call of a program raises -/

/-- Asked for the value of the name, or to assign to it, in the environment. -/
inductive Call.Uses (name : String) (env : Env) : Call → Prop where
  | lookup : Uses name env (.evaluation (.symbol name) env)
  | assignment {e : Value} {self : Option Identity} :
      Uses name env (.evaluation (.list [.symbol "set!", .symbol name, e] self) env)

theorem EvalFault.code_bounds (fault : EvalFault) : 200 ≤ fault.code ∧ fault.code < 300 := by
  cases fault with
  | _ => exact ⟨Nat.le_of_ble_eq_true rfl, Nat.le_of_ble_eq_true rfl⟩

/-- An operation fails with other codes than expressions do. -/
theorem Operation.le_code_of_perform {op : Operation} {arguments : List Value} {fault : EvalFault}
    (h : op.perform arguments = .error fault) : 204 ≤ fault.code := by
  rcases op.faults_perform arguments fault h with harguments | ⟨-, -, rfl⟩
  · cases fault with
    | arityMismatch | typeError | divisionByZero => exact Nat.le_of_ble_eq_true rfl
    | _ => cases harguments
  · exact Nat.le_of_ble_eq_true rfl

theorem head?_toList_append {first : String} {c : Char} (h : first.toList.head? = some c)
    (rest : String) : (first ++ rest).toList.head? = some c := by
  rw [String.toList_append, List.head?_append, h]
  rfl

/-- No other fault of shape is told in the words for an empty sequence of expressions. -/
theorem SyntaxFault.detail_ne_of_isShape {shape : SyntaxFault} (h : shape.isShape = true) :
    shape.detail ≠ "empty expression sequence" := by
  have hne : ∀ {text : String} {c : Char}, text.toList.head? = some c → c ≠ 'e' →
      text ≠ "empty expression sequence" := by
    rintro text c hhead hc rfl
    exact hc (Option.some.inj (hhead.symm.trans (by decide)))
  -- a text with a name in it starts with another letter
  cases shape with
  | emptySequence | other => cases h
  | procedureName | parameterName | duplicateParameter | patternNotList | duplicateVariable
  | patternElement | literalNotSymbol =>
    exact hne (head?_toList_append rfl _) (by decide)
  | definitionArity | missingBody | rulesShape | variableNeedsEllipsis | repetitionLengths =>
    exact hne (head?_toList_append (head?_toList_append rfl _) _) (by decide)
  | noClause =>
    exact hne (head?_toList_append (head?_toList_append (head?_toList_append rfl _) _) _)
      (by decide)
  | _ => decide

namespace Discipline

variable {call : Call} {t : State} {failure : Failure}

/-- Over the core forms no form of an embedding program fails. -/
theorem Raises.not_hosted (hforms : t.registry.handlers = SpecialForm.registry.handlers)
    {tag : String} {form : HostForm} : t.registry.get? tag ≠ some (.host form) := by
  rw [Registry.get?, hforms]
  exact SpecialForm.registered_ne_host form

/-- Every failure of a call is a fault of evaluation. -/
theorem Raises.exists_fault (h : program.Raises call t failure)
    (hforms : t.registry.handlers = SpecialForm.registry.handlers) :
    ∃ fault, failure = .eval fault := by
  cases h with
  | hosted htag => exact absurd htag (Raises.not_hosted hforms)
  | _ => exact ⟨_, rfl⟩

theorem Raises.isShape {shape : SyntaxFault}
    (h : program.Raises call t (.eval (.malformedSyntax shape)))
    (hforms : t.registry.handlers = SpecialForm.registry.handlers) : shape.isShape = true := by
  cases h with
  | misshapen hshape => exact hshape
  | hosted htag => exact absurd htag (Raises.not_hosted hforms)
  | emptyBody hfree => exact absurd trivial hfree
  | refused hperform =>
    exact absurd (Operation.le_code_of_perform hperform) (show ¬ 204 ≤ 203 by decide)

/-- Only the empty list is an expression of an unknown kind. -/
theorem Raises.evaluates_nil {text : String}
    (h : program.Raises call t (.eval (.unknownExpression text)))
    (hforms : t.registry.handlers = SpecialForm.registry.handlers) :
    text = "()" ∧ ∃ self env, call = .evaluation (.list [] self) env := by
  cases h with
  | emptyList => exact ⟨rfl, _, _, rfl⟩
  | noExpression hfree => exact absurd trivial hfree
  | hosted htag => exact absurd htag (Raises.not_hosted hforms)
  | refused hperform =>
    exact absurd (Operation.le_code_of_perform hperform) (show ¬ 204 ≤ 202 by decide)

/-- A name is unbound where no frame of the environment binds it. -/
theorem Raises.uses {name : String} (h : program.Raises call t (.eval (.unboundVariable name)))
    (hforms : t.registry.handlers = SpecialForm.registry.handlers) (hdefined : t.store.Defined) :
    ∃ env, call.Uses name env ∧ ∀ id ∈ env, (t.store.frame id).contains name = false := by
  cases h with
  | unbound hfind =>
    exact ⟨_, .lookup, Store.contains_eq_false_of_resolve (hdefined.resolve_eq_none hfind)⟩
  | unassignable htag hresolve =>
    rw [Registry.get?, hforms] at htag
    obtain rfl := SpecialForm.eq_of_registered_assign htag
    exact ⟨_, .assignment, Store.contains_eq_false_of_resolve hresolve⟩
  -- only the core forms are registered, so no handler of a host is to blame
  | hosted htag => exact absurd htag (Raises.not_hosted hforms)
  | refused hperform =>
    exact absurd (Operation.le_code_of_perform hperform) (show ¬ 204 ≤ 200 by decide)

/-- The code for a failure that a program states itself is that of the primitive `error`. -/
theorem Raises.applies_error {fault : EvalFault} (h : program.Raises call t (.eval fault))
    (hforms : t.registry.handlers = SpecialForm.registry.handlers) (hcode : fault.code = 208) :
    ∃ self arguments, call = .application (.primitive (.operation .error) self) arguments ∧
      arguments ≠ [] ∧ fault = .userError (" ".intercalate (arguments.map Value.display)) := by
  cases h with
  | hosted htag => exact absurd htag (Raises.not_hosted hforms)
  -- of all the operations only `error` reports with this code
  | @refused op self arguments _ _ hperform =>
    rcases Operation.faults_perform op arguments _ hperform with harguments | ⟨rfl, hne, heq⟩
    · cases fault with
      | arityMismatch | typeError | divisionByZero => cases hcode
      | _ => cases harguments
    · exact ⟨self, arguments, rfl, hne, heq⟩
  | _ => cases hcode

end Discipline

/-! ### Reports -/

namespace Session

/-- The run of the expressions makes a call of which `P` holds. -/
def Calls (s : Session) (expressions : List Value) (P : Call → Prop) : Prop :=
  Machine.Calls s.config s.limit (fun m => program m s.global none expressions) s.state P

/-- The grounds on which a run of expressions is at fault, if it ends in the given state. -/
structure Grounds (s : Session) (expressions : List Value) (t : State) (fault : EvalFault) :
    Prop where
  code : 200 ≤ fault.code ∧ fault.code < 300
  /-- A sequence of expressions is never empty. -/
  shape : ∀ shape, fault = .malformedSyntax shape → shape.detail ≠ "empty expression sequence"
  /-- The one expression of an unknown kind is the empty list. -/
  unknown : ∀ text, fault = .unknownExpression text → text = "()" ∧
    s.Calls expressions fun call => ∃ self env, call = .evaluation (.list [] self) env
  /-- An unbound variable is a name that no frame of the environment binds. -/
  unbound : ∀ name, fault = .unboundVariable name → s.Calls expressions fun call =>
    ∃ env, call.Uses name env ∧ ∀ id ∈ env, (t.store.frame id).contains name = false
  /-- Only `error` lets a program state a failure. -/
  stated : fault.code = 208 → s.Calls expressions fun call =>
    ∃ self arguments, call = .application (.primitive (.operation .error) self) arguments ∧
      arguments ≠ [] ∧ fault = .userError (" ".intercalate (arguments.map Value.display))

/-- What a session reports of a text that does not run to its end, and the session after it. -/
inductive Reports (s : Session) (source : String) (file : Option String) :
    Failure → Session → Prop where
  /-- The text cannot be read; nothing has happened. -/
  | unreadable {fault : ReadFault} {place : Location} :
      Source.read source file = .error (.read fault (some place)) →
      Reports s source file (.read fault (some place)) s
  /-- A run is at fault, and there are grounds for it. -/
  | atFault {expressions : List Value} {fault : EvalFault} {t : Session} :
      Source.read source file = .ok expressions → s.Grounds expressions t.state fault →
      Reports s source file (.eval fault) t

variable {s : Session}

/-- **A run of a sound session fails on grounds only.** -/
theorem Sound.exists_grounds (h : s.Sound) {expressions : List Value}
    (hes : ∀ e ∈ expressions, e.Source) {failure : Failure} {t : State}
    (hfails : program s.machine s.global none expressions s.state = .error failure t) :
    ∃ fault, failure = .eval fault ∧ s.Grounds expressions t fault := by
  have hruns := fun m G (hm : Footprint.session.Keeps G m) => h.runsFrom hm hes
  have hsimulates := fun S m n (hmachines : Simulation.Machines S m n) =>
    Simulation.program hmachines s.config s.global none expressions
  -- some call raises the failure, in the state in which the run ends
  have hcalls := Machine.calls_of_failure hruns hsimulates hfails
  -- that state is one of a sound session
  obtain ⟨hleads, -⟩ :=
    (hruns _ _ (Footprint.session.keeps_machine s.config s.limit)).of_eq_error hfails
  have hends := h.of_leads hleads
  obtain ⟨call, hraises⟩ := hcalls.exists
  obtain ⟨fault, rfl⟩ := hraises.exists_fault hends.forms
  refine ⟨fault, rfl, fault.code_bounds, ?_, ?_, ?_, ?_⟩
  · rintro shape rfl
    exact SyntaxFault.detail_ne_of_isShape (hraises.isShape hends.forms)
  · rintro text rfl
    refine ⟨(hraises.evaluates_nil hends.forms).1, hcalls.imp hsimulates fun call hcall => ?_⟩
    exact (hcall.evaluates_nil hends.forms).2
  · rintro name rfl
    exact hcalls.imp hsimulates fun call hcall => hcall.uses hends.forms hends.defined
  · intro hcode
    exact hcalls.imp hsimulates fun call hcall => hcall.applies_error hends.forms hcode

theorem Sound.reports (h : s.Sound) {source : String} {file : Option String} {failure : Failure}
    {t : Session} (hrun : s.run source file = (.error failure, t)) :
    s.Reports source file failure t := by
  cases hread : Source.read source file with
  | error unreadable =>
    rw [Session.run, hread] at hrun
    cases hrun
    -- the text could not be read, and nothing was run
    obtain ⟨fault, place, rfl⟩ := Source.exists_location_of_read hread
    exact .unreadable hread
  | ok expressions =>
    rw [Session.run, hread] at hrun
    obtain ⟨fault, rfl, hgrounds⟩ :=
      h.exists_grounds (Source.source_of_read hread) (of_perform_eq_error hrun)
    exact .atFault hread hgrounds

/-- **Sessions are orderly, and what they report has its grounds.** Every session over the core
forms starts that allows any nesting; it is orderly after any texts, whether or not they run to
their ends; and of any further text it reports that it cannot be read, where that is, or a fault of
its evaluation, on grounds. -/
theorem orderly_and_reports (limit : Nat) (tracing prelude : Bool) :
    ∃ s, startAt (limit + 1) SpecialForm.registry tracing prelude = .ok s ∧
      ∀ texts, (s.runAll texts).Orderly ∧ ∀ source file failure t,
        (s.runAll texts).run source file = (.error failure, t) →
          (s.runAll texts).Reports source file failure t := by
  obtain ⟨s, hstart, hsound⟩ := exists_startAt limit tracing prelude
  refine ⟨s, hstart, fun texts => ?_⟩
  have hafter := hsound.runAll texts
  exact ⟨hafter.orderly, fun source file failure t hrun => hafter.reports hrun⟩

/-- A call of a name that is bound nowhere is a fault with its grounds. -/
theorem orderly_and_reports_unbound : ∃ s t, start SpecialForm.registry false false = .ok s ∧
    s.run "(f)" none = (.error (.eval (.unboundVariable "f")), t) ∧
      s.Reports "(f)" none (.eval (.unboundVariable "f")) t := by
  obtain ⟨s, hstart, hsession⟩ := orderly_and_reports (nestingLimit - 1) false false
  have hfails : (match (s.run "(f)" none).1 with
      | .error failure => failure == .eval (.unboundVariable "f")
      | .ok _ => false) = true := by
    cases hstart
    decide +kernel
  cases hrun : s.run "(f)" none with
  | mk result t =>
    rw [hrun] at hfails
    cases result with
    | ok v => cases hfails
    | error failure =>
      obtain rfl := eq_of_beq hfails
      exact ⟨s, t, hstart, hrun, (hsession []).2 "(f)" none _ t hrun⟩

end Session

end SmallLisp
