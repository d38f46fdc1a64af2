import SmallLisp.Proofs.Discipline.Machine
import SmallLisp.Proofs.Run.Simulation

/-!
# The call that a failure comes from

A run makes a call if it does not survive a machine that refuses such calls: whatever failure the
refusal ends in, the run ends in it (`Machine.Calls`). This speaks of what happens inside a run
without adding anything to the state or to the evaluator.

`Machine.calls_of_failure` says where failures come from: a run that fails makes a call that raises
this failure itself, in the state in which the run ends. The proof compares two runs. Refusing the
calls in question either ends the run or makes no difference to it (`Simulation.refusal`). If it
made no difference, then the failure is raised by some other call, since that is what a machine that
refuses calls keeps to (`Footprint.keeps_refusingLevels`), and this is what no other call does.
-/

namespace SmallLisp

namespace Machine

open Classical in
/-- The machine that refuses the calls of which `P` holds. -/
noncomputable def refusing (P : Call → Prop) (failure : Failure) (m : Machine) : Machine where
  evaluate e env := if P (.evaluation e env) then throw failure else m.evaluate e env
  apply procedure arguments :=
    if P (.application procedure arguments) then throw failure else m.apply procedure arguments

/-- The machine of so many levels that refuses calls at every level. -/
noncomputable def refusingLevels (P : Call → Prop) (failure : Failure) (config : Config) :
    Nat → Machine
  | 0 => exhausted.refusing P failure
  | levels + 1 =>
    let m := refusingLevels P failure config levels
    Machine.refusing P failure ⟨evaluateStep config m, applyStep config m⟩

/-- **The run makes a call** of which `P` holds: if such calls are refused, it ends in the failure
of the refusal, whichever that is. -/
def Calls {α : Type} (config : Config) (levels : Nat) (run : Machine → Eval α) (s : State)
    (P : Call → Prop) : Prop :=
  ∀ failure, ∃ t, run (refusingLevels P failure config levels) s = .error failure t

end Machine

open Machine

variable {P Q : Call → Prop} {failure : Failure} {config : Config} {levels : Nat}

/-! ### Refusing calls -/

/-- Refusing more calls ends a run in the refusal or makes no difference to it. -/
def Simulation.refusal (failure : Failure) : Simulation where
  Rel x y := ∀ s, y s = x s ∨ ∃ t, y s = .error failure t
  refl _ _ := .inl rfl
  bind {α β x y f g} hxy hfg s := by
    change EStateM.bind y g s = EStateM.bind x f s ∨ ∃ t, EStateM.bind y g s = .error failure t
    unfold EStateM.bind
    rcases hxy s with hsame | ⟨t, hrefused⟩
    · -- nothing has been refused so far, so the second part decides
      rw [hsame]
      split
      · exact hfg _ _
      · exact .inl rfl
    · rw [hrefused]
      exact .inr ⟨t, rfl⟩
  deeper {α x y} hxy s := by
    rw [Eval.deeper_apply, Eval.deeper_apply]
    rcases hxy { s with depth := s.depth + 1 } with hsame | ⟨t, hrefused⟩
    · rw [hsame]
      exact .inl rfl
    · rw [hrefused]
      exact .inr ⟨_, rfl⟩

theorem Simulation.machines_refusing {m n : Machine}
    (h : (Simulation.refusal failure).Machines m n) (hPQ : ∀ call, P call → Q call) :
    (Simulation.refusal failure).Machines (m.refusing P failure) (n.refusing Q failure) := by
  constructor
  · intro e env s
    -- a call that is refused here is refused there as well; any other is answered by the machines
    by_cases hQ : Q (.evaluation e env)
    · have hrefused : (n.refusing Q failure).evaluate e env = throw failure := if_pos hQ
      exact .inr ⟨s, by rw [hrefused]; rfl⟩
    · have hm : (m.refusing P failure).evaluate e env = m.evaluate e env :=
        if_neg fun hP => hQ (hPQ _ hP)
      have hn : (n.refusing Q failure).evaluate e env = n.evaluate e env := if_neg hQ
      rw [hm, hn]
      exact h.evaluate e env s
  · intro procedure arguments s
    by_cases hQ : Q (.application procedure arguments)
    · have hrefused : (n.refusing Q failure).apply procedure arguments = throw failure := if_pos hQ
      exact .inr ⟨s, by rw [hrefused]; rfl⟩
    · have hm : (m.refusing P failure).apply procedure arguments = m.apply procedure arguments :=
        if_neg fun hP => hQ (hPQ _ hP)
      have hn : (n.refusing Q failure).apply procedure arguments = n.apply procedure arguments :=
        if_neg hQ
      rw [hm, hn]
      exact h.apply procedure arguments s

theorem Simulation.machines_refusingLevels (hPQ : ∀ call, P call → Q call) (levels : Nat) :
    (Simulation.refusal failure).Machines (refusingLevels P failure config levels)
      (refusingLevels Q failure config levels) := by
  induction levels with
  | zero =>
    have hsame : (Simulation.refusal failure).Machines exhausted exhausted :=
      ⟨fun _ _ => Simulation.refl _ _, fun _ _ => Simulation.refl _ _⟩
    exact Simulation.machines_refusing hsame hPQ
  | succ levels ih =>
    exact Simulation.machines_refusing
      ⟨Simulation.evaluateStep ih config, Simulation.applyStep ih config⟩ hPQ

/-- Refusing nothing makes no difference. -/
theorem Machine.refusingLevels_false (failure : Failure) (config : Config) (levels : Nat) :
    refusingLevels (fun _ => False) failure config levels = machine config levels := by
  have hrefusing : ∀ m : Machine, m.refusing (fun _ => False) failure = m := by
    intro m
    simp only [refusing, if_false]
  induction levels with
  | zero => exact hrefusing _
  | succ levels ih =>
    rw [refusingLevels, ih]
    exact hrefusing _

theorem Simulation.machines_machine (P : Call → Prop) (levels : Nat) :
    (Simulation.refusal failure).Machines (machine config levels)
      (refusingLevels P failure config levels) := by
  rw [← refusingLevels_false failure config levels]
  exact Simulation.machines_refusingLevels (fun _ => False.elim) levels

/-! ### Where failures come from -/

namespace Footprint

variable {D : Discipline}

/-- A machine that refuses calls keeps to what the machine keeps to, and what is said of failures
holds of the refusal too. -/
theorem Keeps.refusing {F : Footprint D} {m : Machine} {V : Call → Verdict} {G : Verdict}
    (hevaluate : ∀ {e env}, D.Code e → D.Scope env →
      F.Runs (fun f t => env ≠ [] → V (.evaluation e env) f t) env.head? (m.evaluate e env) D.Data)
    (happly : ∀ {procedure arguments}, D.Data procedure → (∀ a ∈ arguments, D.Data a) →
      F.Runs (V (.application procedure arguments)) none (m.apply procedure arguments) D.Data)
    (hV : ∀ call f t, ¬ P call → V call f t → G f t) (hfailure : ∀ t, G failure t) :
    F.Keeps G (m.refusing P failure) := by
  constructor
  · intro e env he henv
    -- a refused call raises the refusal, any other what the machine raises
    by_cases hP : P (.evaluation e env)
    · have hrefused : (m.refusing P failure).evaluate e env = throw failure := if_pos hP
      rw [hrefused]
      exact runs_throw fun t _ => hfailure t
    · have hm : (m.refusing P failure).evaluate e env = m.evaluate e env := if_neg hP
      rw [hm]
      exact (hevaluate he henv).blame fun f t hf hne => hV _ f t hP (hf hne)
  · intro procedure arguments hprocedure harguments
    by_cases hP : P (.application procedure arguments)
    · have hrefused : (m.refusing P failure).apply procedure arguments = throw failure := if_pos hP
      rw [hrefused]
      exact runs_throw hfailure
    · have hm : (m.refusing P failure).apply procedure arguments = m.apply procedure arguments :=
        if_neg hP
      rw [hm]
      exact (happly hprocedure harguments).blame fun f t hf => hV _ f t hP hf

/-- **A machine that refuses calls** fails with the refusal, or with what another call raises. -/
theorem keeps_refusingLevels (F : Footprint D) (P : Call → Prop) (failure : Failure)
    (config : Config) (levels : Nat) :
    F.Keeps (fun f t => f = failure ∨ ∃ call, ¬ P call ∧ D.Raises call t f)
      (refusingLevels P failure config levels) := by
  -- the depth plays no part in what a call raises
  have hstable : ∀ f (t : State) depth, (f = failure ∨ ∃ call, ¬ P call ∧ D.Raises call t f) →
      f = failure ∨ ∃ call, ¬ P call ∧ D.Raises call { t with depth } f := by
    rintro f t depth (rfl | ⟨call, hcall, hraises⟩)
    · exact .inl rfl
    · exact .inr ⟨call, hcall, hraises.with_depth depth⟩
  -- what a call that is not refused raises itself, or what is raised further inside
  have hown : ∀ call f t, ¬ P call →
      (D.Raises call t f ∨ f = failure ∨ ∃ call, ¬ P call ∧ D.Raises call t f) →
      f = failure ∨ ∃ call, ¬ P call ∧ D.Raises call t f := by
    rintro call f t hcall (hraises | hinner)
    · exact .inr ⟨call, hcall, hraises⟩
    · exact hinner
  -- at each level a call raises something itself or hands on what was raised below
  induction levels with
  | zero =>
    refine Keeps.refusing (V := fun call f t => D.Raises call t f ∨ f = failure ∨ _) ?_ ?_ hown
      fun _ => .inl rfl
    · intro e env _ _
      exact runs_closeRegistry.bind fun _ _ => runs_fail fun _ _ => .inl .exhausted
    · intro procedure arguments _ _
      exact runs_fail fun _ => .inl .exhausted
  | succ levels ih =>
    refine Keeps.refusing (V := fun call f t => D.Raises call t f ∨ f = failure ∨ _) ?_ ?_ hown
      fun _ => .inl rfl
    · intro e env he henv
      exact ih.evaluateStep config he henv
    · intro procedure arguments hprocedure harguments
      exact ih.applyStep config hstable hprocedure harguments

end Footprint

/-- **Where failures come from.** A run that keeps to a discipline over every machine, and that
fails with nothing but what the machine fails with, makes a call that raises its failure itself, in
the state in which it ends. -/
theorem Machine.calls_of_failure {α : Type} {D : Discipline} {F : Footprint D}
    {inner : Option FrameId} {run : Machine → Eval α} {post : α → Prop} {s t : State}
    {failure : Failure}
    (hruns : ∀ m G, F.Keeps G m → F.RunsFrom G inner s (run m) post)
    (hsimulates : ∀ (S : Simulation) m n, S.Machines m n → S.Rel (run m) (run n))
    (hfails : run (machine config levels) s = .error failure t) :
    Machine.Calls config levels run s fun call => D.Raises call t failure := by
  intro refusal
  let P : Call → Prop := fun call => D.Raises call t failure
  rcases hsimulates _ _ _ (Simulation.machines_machine P levels) s with hsame | hrefused
  · -- if nothing was refused, then a call outside `P` raised the failure; there is none, by
    -- definition
    rw [hfails] at hsame
    have hkeeps := hruns _ _ (F.keeps_refusingLevels P refusal config levels)
    obtain ⟨-, rfl | ⟨call, hnot, hraises⟩⟩ := Eval.Ensures.of_eq_error hkeeps hsame
    · exact ⟨t, hsame⟩
    · exact absurd hraises hnot
  · exact hrefused

/-- There are calls of a kind that a run makes: refusing none is no refusal, and the run cannot end
in two failures. -/
theorem Machine.Calls.exists {α : Type} {run : Machine → Eval α} {s : State}
    (h : Machine.Calls config levels run s P) : ∃ call, P call := by
  by_contra hnone
  have hnothing : P = fun _ => False :=
    funext fun call => propext ⟨fun hcall => hnone ⟨call, hcall⟩, False.elim⟩
  rw [hnothing] at h
  obtain ⟨t, ht⟩ := h (.eval .divisionByZero)
  obtain ⟨u, hu⟩ := h (.eval .recursionExhausted)
  rw [refusingLevels_false] at ht hu
  rw [ht] at hu
  cases hu

/-- A run that makes a call of some kind makes one of every wider kind. -/
theorem Machine.Calls.imp {α : Type} {run : Machine → Eval α} {s : State}
    (hsimulates : ∀ (S : Simulation) m n, S.Machines m n → S.Rel (run m) (run n))
    (h : Machine.Calls config levels run s P) (hPQ : ∀ call, P call → Q call) :
    Machine.Calls config levels run s Q := by
  intro failure
  obtain ⟨t, ht⟩ := h failure
  rcases hsimulates _ _ _ (Simulation.machines_refusingLevels hPQ levels) s with hsame | hrefused
  · exact ⟨t, hsame.trans ht⟩
  · exact hrefused

end SmallLisp
