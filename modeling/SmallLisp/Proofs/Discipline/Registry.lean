import SmallLisp.Proofs.Discipline.Machine
import SmallLisp.Proofs.Environment.Reachability

/-!
# The registry during a run

No evaluation registers a form, whatever it evaluates and in whatever state, and no application
does. That is a part of every footprint, so any footprint will do, over the discipline that allows
everything (`Footprint.leads_evaluate`, `Footprint.leads_apply`). That a registry stays sealed, too,
is a footprint of its own (`Footprint.sealing`); a sealed registry is therefore the same after an
evaluation as before (`Machine.registry_of_evaluate`).
-/

namespace SmallLisp

/-- Where everything is allowed, every value is. -/
theorem Discipline.within_everything {role : Role} (v : Value) :
    (Discipline.frames fun _ => True).Within role v :=
  within_frames fun _ _ => trivial

theorem Discipline.holds_everything (s : Store) : (Discipline.frames fun _ => True).Holds s :=
  ⟨fun _ _ => trivial, fun _ _ _ _ => trivial, fun _ _ _ v _ => within_everything v⟩

variable (F : Footprint (Discipline.frames fun _ => True)) (config : Config) (levels : Nat)

/-- Where everything is allowed, every evaluation keeps to every footprint. -/
theorem Footprint.leads_evaluate (e : Value) (env : Env) (s : State) :
    F.Leads env.head? s (((machine config levels).evaluate e env).finalState s) := by
  have hscope : (Discipline.frames fun _ => True).Scope env := fun _ _ => trivial
  have hkeeps := (F.keeps_machine config levels).evaluate (Discipline.within_everything e) hscope
  exact (hkeeps s (Discipline.holds_everything s.store)).leads

/-- Where everything is allowed, every application keeps to every footprint. -/
theorem Footprint.leads_apply (procedure : Value) (arguments : List Value) (s : State) :
    F.Leads none s (((machine config levels).apply procedure arguments).finalState s) := by
  have hkeeps := (F.keeps_machine config levels).apply (Discipline.within_everything procedure)
    (fun a (_ : a ∈ arguments) => Discipline.within_everything a)
  exact (hkeeps s (Discipline.holds_everything s.store)).leads

/-- Keeping the registry sealed, as a footprint. -/
def Footprint.sealing (D : Discipline) : Footprint D where
  Rel _ s t := s.registry.isSealed = true → t.registry.isSealed = true
  refl _ _ h := h
  trans hst htu h := htu (hst h)
  outer h := h
  settle _ _ _ h := h
  close _ _ _ := rfl
  output _ _ _ h := h
  trace _ _ _ _ _ _ h := h
  deeper h := h
  define _ _ _ h := h
  assign _ _ _ h := h
  call _ _ h := h

/-- A sealed registry stays as it is. -/
theorem Machine.registry_of_evaluate {config : Config} {levels : Nat} {e v : Value} {env : Env}
    {s t : State} (h : (machine config levels).evaluate e env s = .ok v t)
    (hsealed : s.registry.isSealed = true) : t.registry = s.registry := by
  have hleads := (Footprint.sealing _).leads_evaluate config levels e env s
  rw [Eval.finalState_of_ok h] at hleads
  exact congrArg₂ Registry.mk hleads.handlers ((hleads.rel hsealed).trans hsealed.symm)

end SmallLisp
