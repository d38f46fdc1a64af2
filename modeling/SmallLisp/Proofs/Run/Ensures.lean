import SmallLisp.Eval.State

/-!
# What a computation ensures

An evaluation changes the state even when it fails, so a statement about it has two postconditions,
one for the value and one for the failure, and both see the state in which the computation ends.
`Eval.Ensures` is that statement for one starting state. There is one rule for each way in which the
evaluator builds computations, so no proof about the evaluator opens the monad again.
-/

namespace SmallLisp.Eval

variable {α β : Type} {s : State}

/-- Run in the state `s`, the computation ends in a value and a state for which `onValue` holds, or
in a failure and a state for which `onFailure` holds. -/
def Ensures (x : Eval α) (s : State) (onValue : α → State → Prop)
    (onFailure : Failure → State → Prop) : Prop :=
  match x s with
  | .ok a t => onValue a t
  | .error failure t => onFailure failure t

variable {onValue : α → State → Prop} {onFailure : Failure → State → Prop}

instance [∀ a t, Decidable (onValue a t)] [∀ failure t, Decidable (onFailure failure t)]
    (x : Eval α) (s : State) : Decidable (x.Ensures s onValue onFailure) :=
  match h : x s with
  | .ok a t => decidable_of_iff (onValue a t) (by rw [Ensures, h])
  | .error failure t => decidable_of_iff (onFailure failure t) (by rw [Ensures, h])

/-- What holds however a computation ends holds of its final state. -/
theorem Ensures.finalState {P : State → Prop} {x : Eval α}
    (h : x.Ensures s (fun _ t => P t) fun _ t => P t) : P (x.finalState s) := by
  unfold Ensures at h
  unfold Eval.finalState
  split <;> simp_all

/-- What is ensured of the value holds of a computation that is known to end in one. -/
theorem Ensures.of_eq_ok {x : Eval α} (h : x.Ensures s onValue onFailure) {a : α} {t : State}
    (hx : x s = .ok a t) : onValue a t := by
  unfold Ensures at h
  rwa [hx] at h

/-- What is ensured of the failure holds of a computation that is known to end in one. -/
theorem Ensures.of_eq_error {x : Eval α} (h : x.Ensures s onValue onFailure) {failure : Failure}
    {t : State} (hx : x s = .error failure t) : onFailure failure t := by
  unfold Ensures at h
  rwa [hx] at h

/-- Weaker postconditions are ensured as well. -/
theorem Ensures.imp {x : Eval α} {onValue' : α → State → Prop}
    {onFailure' : Failure → State → Prop} (h : x.Ensures s onValue onFailure)
    (hvalue : ∀ a t, onValue a t → onValue' a t)
    (hfailure : ∀ failure t, onFailure failure t → onFailure' failure t) :
    x.Ensures s onValue' onFailure' := by
  unfold Ensures at h ⊢
  split at h
  · exact hvalue _ _ h
  · exact hfailure _ _ h

/-! ### One rule for each construction -/

theorem ensures_pure {a : α} (h : onValue a s) :
    (pure a : Eval α).Ensures s onValue onFailure := h

theorem ensures_throw {failure : Failure} (h : onFailure failure s) :
    (throw failure : Eval α).Ensures s onValue onFailure := h

/-- The second computation runs in the state that the first one leaves, unless the first one
fails. -/
theorem ensures_bind {x : Eval β} {f : β → Eval α}
    (h : x.Ensures s (fun b t => (f b).Ensures t onValue onFailure) onFailure) :
    (x >>= f).Ensures s onValue onFailure := by
  unfold Ensures at h ⊢
  change match EStateM.bind x f s with | .ok a t => _ | .error failure t => _
  unfold EStateM.bind
  split at h
  · next heq => rw [heq]; exact h
  · next heq => rw [heq]; exact h

theorem ensures_get_bind {f : State → Eval α} (h : (f s).Ensures s onValue onFailure) :
    (get >>= f).Ensures s onValue onFailure := h

theorem ensures_modify {f : State → State} {onValue : Unit → State → Prop}
    (h : onValue () (f s)) : (modify f : Eval Unit).Ensures s onValue onFailure := h

theorem ensures_modifyGet {f : State → α × State} (h : onValue (f s).1 (f s).2) :
    (modifyGet f : Eval α).Ensures s onValue onFailure := h

theorem ensures_ofExcept {ε : Type} {toFailure : ε → Failure} {x : Except ε α}
    (hvalue : ∀ a, x = .ok a → onValue a s)
    (hfailure : ∀ fault, x = .error fault → onFailure (toFailure fault) s) :
    (ofExcept toFailure x).Ensures s onValue onFailure := by
  cases x with
  | ok a => exact hvalue a rfl
  | error fault => exact hfailure fault rfl

/-- A computation one call deeper ends as it would, with one call less under way. -/
theorem ensures_deeper {call : Eval α}
    (h : call.Ensures { s with depth := s.depth + 1 }
      (fun a t => onValue a { t with depth := t.depth - 1 })
      fun failure t => onFailure failure { t with depth := t.depth - 1 }) :
    (deeper call).Ensures s onValue onFailure := by
  unfold Ensures at h ⊢
  rw [deeper_apply]
  split at h
  · next heq => simpa only [heq] using h
  · next heq => simpa only [heq] using h

end SmallLisp.Eval
