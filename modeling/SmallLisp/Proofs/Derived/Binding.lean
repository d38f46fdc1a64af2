import SmallLisp.Proofs.Environment.Sharing
import SmallLisp.Proofs.Run.Dispatch
import SmallLisp.Proofs.Run.Levels

/-!
# Bindings side by side

A `let` stands for the application of a `lambda`. What it means can be said without one
(`Machine.evaluateBinding`): evaluate the expressions of the bindings from left to right, where the
`let` stands, put one frame that binds the names to the values in front of the environment, and
evaluate the body there. Which forms are meant can be said as well (`Derived.Binds`): the bindings
are pairs of a name and an expression, the names are different, and there is a body.

Of these the rewriting checks all but the names; that they are different is found out when the
`lambda` is evaluated, which is before any of the expressions (`Machine.evaluates_bindings`). The
application is nested more deeply than the direct reading, by two levels for the expressions and by
three for the body, so again the runs are compared by the order of `Proofs.Run.Levels`. One
computation stands for both, in which the expressions and the body are evaluated by machines of
their own (`Machine.bindOver`).
-/

namespace SmallLisp

namespace Derived

/-! ### The forms that bind -/

/-- The binding is a pair of that name and that expression. -/
def IsPair (binding : Value) (p : String × Value) : Prop :=
  ∃ self, binding = .list [.symbol p.1, p.2] self

/-- The operands are a list of pairs and a body. -/
structure Pairs (operands : List Value) (pairs : List (String × Value)) (body : List Value) :
    Prop where
  bindings : ∃ bindings self, operands = .list bindings self :: body
    ∧ List.Forall₂ IsPair bindings pairs
  body : body ≠ []

/-- The operands are a list of pairs, with different names, and a body. -/
structure Binds (operands : List Value) (pairs : List (String × Value)) (body : List Value) : Prop
    extends Pairs operands pairs body where
  distinct : (pairs.map Prod.fst).Nodup

/-- The `lambda` with these parameters and this body. -/
def operator (names : List String) (body : List Value) : Value :=
  .ofList (.symbol "lambda" :: .ofList (names.map .symbol) :: body)

/-- The application of a `lambda` to the expressions of the pairs. -/
def application (pairs : List (String × Value)) (body : List Value) : Value :=
  .ofList (operator (pairs.map Prod.fst) body :: pairs.map Prod.snd)

/-- Bindings are split into names and expressions if they are pairs. -/
theorem splitBindings_eq_ok_iff {bindings : List Value} {columns : List Value × List Value} :
    splitBindings bindings = .ok columns ↔ ∃ pairs, List.Forall₂ IsPair bindings pairs
      ∧ columns = ((pairs.map Prod.fst).map .symbol, pairs.map Prod.snd) := by
  constructor
  · intro h
    fun_induction splitBindings bindings generalizing columns with
    | case1 =>
      cases h
      exact ⟨[], .nil, rfl⟩
    | case2 name value self rest ih =>
      obtain ⟨others, hothers, rfl⟩ := map_eq_ok_iff.1 h
      obtain ⟨pairs, hpairs, rfl⟩ := ih hothers
      exact ⟨(name, value) :: pairs, .cons ⟨self, rfl⟩ hpairs, rfl⟩
    -- a binding that is no pair is refused
    | case3 => cases h
  · rintro ⟨pairs, hpairs, rfl⟩
    induction hpairs with
    | nil => rfl
    | cons hpair _ ih =>
      obtain ⟨self, rfl⟩ := hpair
      rw [splitBindings, ih]
      rfl

/-- A `let` stands for an application if its bindings are pairs and there is a body. -/
theorem combination_eq_ok_iff (tag : Value) {operands : List Value} {plain : Value} :
    combination (tag :: operands) = .ok plain
      ↔ ∃ pairs body, Pairs operands pairs body ∧ plain = application pairs body := by
  constructor
  · intro h
    unfold combination at h
    split at h
    · next bindings self body heq =>
      obtain ⟨-, rfl⟩ := List.cons.inj heq
      split at h
      · cases h
      · -- the rewriting checks the bindings and that there is a body, not that the names differ
        next hbody =>
        obtain ⟨columns, hsplit, rfl⟩ := map_eq_ok_iff.1 h
        obtain ⟨pairs, hpairs, rfl⟩ := splitBindings_eq_ok_iff.1 hsplit
        exact ⟨pairs, body, ⟨⟨bindings, self, rfl, hpairs⟩, mt List.isEmpty_iff.2 hbody⟩, rfl⟩
    · cases h
  · rintro ⟨pairs, body, ⟨⟨bindings, self, rfl, hpairs⟩, hbody⟩, rfl⟩
    rw [combination, if_neg (mt List.isEmpty_iff.1 hbody),
      splitBindings_eq_ok_iff.2 ⟨pairs, hpairs, rfl⟩]
    rfl

end Derived

/-! ### Names that differ -/

/-- Names are parameters if they are different, and none of them has been seen. -/
theorem Machine.parameterNames_symbols (seen names : List String) :
    match parameterNames seen (names.map .symbol) with
    | .ok found => found = names ∧ names.Nodup ∧ ∀ n ∈ names, n ∉ seen
    | .error _ => ¬ (names.Nodup ∧ ∀ n ∈ names, n ∉ seen) := by
  induction names generalizing seen with
  | nil => exact ⟨rfl, List.nodup_nil, nofun⟩
  | cons name names ih =>
    rw [List.map_cons, parameterNames]
    by_cases hseen : name ∈ seen
    · rw [if_pos (List.contains_iff_mem.2 hseen)]
      exact fun h => h.2 name List.mem_cons_self hseen
    · rw [if_neg (mt List.contains_iff_mem.1 hseen)]
      -- that the later names are new to the longer list says that this one differs from them
      have hdiffer : (names.Nodup ∧ ∀ n ∈ names, n ∉ name :: seen)
          ↔ ((name :: names).Nodup ∧ ∀ n ∈ name :: names, n ∉ seen) := by
        simp only [List.nodup_cons, List.mem_cons, not_or, forall_eq_or_imp]
        constructor
        · rintro ⟨hnd, hnew⟩
          exact ⟨⟨fun hmem => (hnew name hmem).1 rfl, hnd⟩, hseen, fun n hn => (hnew n hn).2⟩
        · rintro ⟨⟨hname, hnd⟩, -, hnew⟩
          exact ⟨hnd, fun n hn => ⟨fun heq => hname (heq ▸ hn), hnew n hn⟩⟩
      have hrest := ih (name :: seen)
      -- the rest is accepted or refused, and with it the whole list
      cases hnames : parameterNames (name :: seen) (names.map .symbol) with
      | ok found =>
        rw [hnames] at hrest
        obtain ⟨rfl, hnew⟩ := hrest
        exact ⟨rfl, hdiffer.1 hnew⟩
      | error fault =>
        rw [hnames] at hrest
        exact fun hnew => hrest (hdiffer.2 hnew)

/-! ### The direct reading -/

namespace Machine

open Eval

/-- Settles the body of a new closure, after the closure itself has taken a number. -/
def settleEnclosed (body : List Value) : Eval (List Value) :=
  modifyGet fun s =>
    let (settled, free) := Value.settleAll body (s.nextIdentity + 1)
    (settled, { s with nextIdentity := free })

/-- Puts a new frame in front of the environment. -/
def pushFrame (env : Env) (f : Frame) : Eval Env :=
  modifyGet fun s =>
    let (env, store) := s.store.push env f
    (env, { s with store })

/-- Evaluates the expressions of the pairs from left to right, and then the body, on another
machine, in the environment with one more frame, which binds the names of the pairs to
the values. -/
def bindOver (m inner : Machine) (env : Env) (pairs : List (String × Value)) (body : List Value) :
    Eval Value := do
  closeRegistry
  let settled ← settleEnclosed body
  let values ← m.evaluateEach env (pairs.map Prod.snd)
  let extended ← pushFrame env (.bind (pairs.map Prod.fst) (values.map some))
  inner.evaluateSequence extended settled

/-- The direct reading of a `let`. As in every evaluation, the registry is closed first. -/
def evaluateBinding (m : Machine) (env : Env) (pairs : List (String × Value)) (body : List Value) :
    Eval Value :=
  m.bindOver m env pairs body

/-- More levels for the expressions and for the body. -/
theorem rel_bindOver (config : Config) {n n' k k' : Nat} (hn : n ≤ n') (hk : k ≤ k') (env : Env)
    (pairs : List (String × Value)) (body : List Value) :
    (Comparison.levels config).Rel ((machine config n).bindOver (machine config k) env pairs body)
      ((machine config n').bindOver (machine config k') env pairs body) := by
  let C := Comparison.levels config
  have hclose : C.Rel closeRegistry closeRegistry := C.silent isSilent_closeRegistry
  have hsettle : C.Rel (settleEnclosed body) (settleEnclosed body) := C.silent fun _ _ _ => rfl
  refine C.bind hclose fun _ => C.bind hsettle fun settled => ?_
  refine C.bind (Congruence.rel_of_asks (Comparison.machines_levels config hn)
    (asks_evaluateEach env _)) fun values => ?_
  have hpush : ∀ f, C.Rel (pushFrame env f) (pushFrame env f) := fun _ => C.silent fun _ _ _ => rfl
  exact C.bind (hpush _) fun extended => Congruence.rel_of_asks
    (Comparison.machines_levels config hk) (asks_evaluateSequence extended settled)

/-! ### The application -/

variable {config : Config} {env : Env} {s t : State}

/-- There are as many values as expressions. -/
theorem length_of_evaluateEach {m : Machine} {es vs : List Value}
    (h : m.evaluateEach env es s = .ok vs t) : vs.length = es.length := by
  induction es generalizing s t vs with
  | nil =>
    cases h
    rfl
  | cons e es ih =>
    -- each expression has given one value, or there would be no success
    rw [evaluateEach] at h
    cases he : m.evaluate e env s with
    | error failure u =>
      rw [bind_of_error he] at h
      cases h
    | ok v u =>
      rw [bind_of_ok he] at h
      cases hes : m.evaluateEach env es u with
      | error failure w =>
        rw [bind_of_error hes] at h
        cases h
      | ok others w =>
        rw [bind_of_ok hes] at h
        cases h
        rw [List.length_cons, List.length_cons, ih hes]

/-- A procedure is made of different names and the settled body. -/
theorem close_of_names {parameters : List Value} {names : List String}
    (h : parameterNames [] parameters = .ok names) (name : Option String) (body : List Value)
    (env : Env) (s : State) :
    close name parameters body env s
      = (settleEnclosed body >>= fun settled =>
          pure (.compound name names settled env (some s.nextIdentity))) s := by
  rw [close, h]
  rfl

/-- Without a record an application is the body in an environment with one more frame. -/
theorem applyStep_compound (htracing : config.tracing = false) (m : Machine) (name : Option String)
    (names : List String) (body : List Value) (env : Env) (self : Option Identity)
    (arguments : List Value) :
    applyStep config m (.compound name names body env self) arguments
      = extend env names arguments >>= fun inner => m.evaluateSequence inner body := by
  rw [applyStep, traced, if_neg (Bool.eq_false_iff.1 htracing)]

/-- The operator and then the expressions, with one level less. -/
theorem evaluate_application (hsealed : s.registry.isSealed = true) (levels : Nat)
    (pairs : List (String × Value)) (body : List Value) :
    (machine config (levels + 1)).evaluate (Derived.application pairs body) env s
      = ((machine config levels).evaluate (Derived.operator (pairs.map Prod.fst) body) env >>=
          fun procedure => (machine config levels).evaluateEach env (pairs.map Prod.snd) >>=
            (machine config levels).apply procedure) s :=
  (evaluateStep_application config (machine config levels) _ _ none none env s).trans
    (congrArg _ (State.closed_of_isSealed hsealed))

/-- The operator closes over the environment. -/
theorem evaluate_operator (hsealed : s.registry.isSealed = true)
    (hlambda : s.registry.get? "lambda" = some .lambda) (levels : Nat) (names : List String)
    {body : List Value} (hbody : body ≠ []) :
    (machine config (levels + 1)).evaluate (Derived.operator names body) env s
      = close none (names.map .symbol) body env s := by
  rw [Derived.operator, Value.ofList, evaluate_special hsealed hlambda]
  cases body with
  | nil => exact absurd rfl hbody
  | cons e es => rfl

/-- **The application of a `lambda` is the direct reading**, the body of which has one level less
than the expressions. -/
theorem evaluate_application_of_nodup (htracing : config.tracing = false)
    (hsealed : s.registry.isSealed = true) (hlambda : s.registry.get? "lambda" = some .lambda)
    {pairs : List (String × Value)} {body : List Value} (hbody : body ≠ [])
    (hdistinct : (pairs.map Prod.fst).Nodup) (levels : Nat) :
    (machine config (levels + 2)).evaluate (Derived.application pairs body) env s
      = (machine config (levels + 1)).bindOver (machine config levels) env pairs body s := by
  have hnames :
      parameterNames [] ((pairs.map Prod.fst).map .symbol) = .ok (pairs.map Prod.fst) := by
    have hspec := parameterNames_symbols [] (pairs.map Prod.fst)
    cases hfound : parameterNames [] ((pairs.map Prod.fst).map .symbol) with
    | ok found =>
      rw [hfound] at hspec
      exact congrArg Except.ok hspec.1
    | error fault =>
      rw [hfound] at hspec
      exact absurd ⟨hdistinct, fun _ _ => List.not_mem_nil⟩ hspec
  -- the closure takes a number before its body settles
  let settled := (Value.settleAll body (s.nextIdentity + 1)).1
  let t : State := { s with nextIdentity := (Value.settleAll body (s.nextIdentity + 1)).2 }
  have hsettle : settleEnclosed body s = .ok settled t := rfl
  let procedure := Value.compound none (pairs.map Prod.fst) settled env (some s.nextIdentity)
  have hoperator : (machine config (levels + 1)).evaluate
      (Derived.operator (pairs.map Prod.fst) body) env s = .ok procedure t := by
    rw [evaluate_operator hsealed hlambda levels _ hbody, close_of_names hnames,
      bind_of_ok hsettle]
    rfl
  have hclosed : closeRegistry s = .ok () s :=
    congrArg (EStateM.Result.ok ()) (State.closed_of_isSealed hsealed)
  rw [evaluate_application hsealed, bind_of_ok hoperator, bindOver, bind_of_ok hclosed,
    bind_of_ok hsettle]
  cases hvalues : (machine config (levels + 1)).evaluateEach env (pairs.map Prod.snd) t with
  | error failure u => rw [bind_of_error hvalues, bind_of_error hvalues]
  | ok values u =>
    rw [bind_of_ok hvalues, bind_of_ok hvalues, apply_machine_succ, applyStep_compound htracing]
    -- there is a value for each name, so the frame can be made
    have hlength : (pairs.map Prod.fst).length = values.length := by
      rw [length_of_evaluateEach hvalues, List.length_map, List.length_map]
    exact bind_congr_of_eq (extend_of_length hlength env u) _

/-- That the names are different is checked with the operator, before any of the expressions. -/
theorem evaluate_application_of_not_nodup (hsealed : s.registry.isSealed = true)
    (hlambda : s.registry.get? "lambda" = some .lambda) {pairs : List (String × Value)}
    {body : List Value} (hbody : body ≠ []) (hdistinct : ¬ (pairs.map Prod.fst).Nodup) :
    ∃ fault, ∀ levels, (machine config (levels + 2)).evaluate (Derived.application pairs body) env s
      = .error (.malformed fault) s := by
  have hspec := parameterNames_symbols [] (pairs.map Prod.fst)
  -- the fault is the same with any number of levels, since no expression has been evaluated
  cases hfound : parameterNames [] ((pairs.map Prod.fst).map .symbol) with
  | ok found =>
    rw [hfound] at hspec
    exact absurd hspec.2.1 hdistinct
  | error fault =>
    refine ⟨fault, fun levels => ?_⟩
    have hoperator : (machine config (levels + 1)).evaluate
        (Derived.operator (pairs.map Prod.fst) body) env s = .error (.malformed fault) s := by
      rw [evaluate_operator hsealed hlambda levels _ hbody, close, hfound]
      rfl
    rw [evaluate_application hsealed, bind_of_error hoperator]

/-- With less than two levels there are none left for the operator. -/
theorem exhausted_application (hsealed : s.registry.isSealed = true) {levels : Nat} (h : levels < 2)
    (pairs : List (String × Value)) (body : List Value) :
    (machine config levels).evaluate (Derived.application pairs body) env s
      = .error .exhausted s := by
  have hzero : ∀ e, (machine config 0).evaluate e env s = .error .exhausted s := by
    intro e
    change EStateM.Result.error Failure.exhausted s.closed = _
    rw [State.closed_of_isSealed hsealed]
  match levels with
  | 0 => exact hzero _
  | 1 => rw [evaluate_application hsealed, bind_of_error (hzero _)]

/-! ### The form -/

section Form

variable (hderived : Derived.ofTag? config.derived "let" = some .binding)
  (hlet : s.registry.get? "let" = none)

include hderived hlet

/-- One level goes to the rewriting, which checks the pairs and the body. -/
theorem evaluate_let_of_pairs {operands : List Value} {pairs : List (String × Value)}
    {body : List Value} (hpairs : Derived.Pairs operands pairs body) (env : Env)
    (self : Option Identity) (levels : Nat) :
    (machine config (levels + 1)).evaluate (.list (.symbol "let" :: operands) self) env s
      = (machine config levels).evaluate (Derived.application pairs body) env s.closed := by
  have hplain : Derived.combination (.symbol "let" :: operands)
      = .ok (Derived.application pairs body) :=
    (Derived.combination_eq_ok_iff _).2 ⟨pairs, body, hpairs, rfl⟩
  rw [evaluate_machine_succ, evaluateStep_derived hlet hderived, Derived.desugar, hplain]

variable (htracing : config.tracing = false)
  (hlambda : s.registry.get? "lambda" = some .lambda)
  {operands : List Value} {pairs : List (String × Value)} {body : List Value}
  (hbinds : Derived.Binds operands pairs body)

include htracing hlambda hbinds

/-- With three levels a `let` is the direct reading. Two of them are gone at the expressions, and
all of them at the body. -/
theorem evaluate_let_of_binds (env : Env) (self : Option Identity) (levels : Nat) :
    (machine config (levels + 3)).evaluate (.list (.symbol "let" :: operands) self) env s
      = (machine config (levels + 1)).bindOver (machine config levels) env pairs body s := by
  have hsealed : s.closed.registry.isSealed = true := rfl
  rw [evaluate_let_of_pairs hderived hlet hbinds.toPairs,
    evaluate_application_of_nodup htracing hsealed hlambda hbinds.body hbinds.distinct]
  -- the direct reading closes the registry itself
  rfl

/-- The direct reading, in which nothing loses a level, ends as a `let` ends. -/
theorem precedesAt_evaluateBinding (env : Env) (self : Option Identity) (levels : Nat) :
    PrecedesAt s ((machine config levels).evaluate (.list (.symbol "let" :: operands) self) env)
      ((machine config levels).evaluateBinding env pairs body) := by
  have hrecords : ∀ n, ((machine config n).evaluateBinding env pairs body).Records := fun n =>
    (rel_bindOver config (Nat.le_refl n) (Nat.le_refl n) env pairs body).2
  -- with one or two levels the rewritten form runs out of them before its body
  have hshallow : ∀ n < 2, PrecedesAt s
      ((machine config (n + 1)).evaluate (.list (.symbol "let" :: operands) self) env)
      ((machine config (n + 1)).evaluateBinding env pairs body) := by
    intro n hn
    have hform := evaluate_let_of_pairs hderived hlet hbinds.toPairs env self n
    exact .of_exhausted (hform.trans (exhausted_application rfl hn pairs body)) rfl
      (hrecords (n + 1))
  rcases levels with _ | _ | _ | n
  · exact precedesAt_exhausted (hrecords 0) _ env s
  · exact hshallow 0 Nat.zero_lt_two
  · exact hshallow 1 Nat.one_lt_two
  · -- with three or more it is the direct run, three levels below
    have hdeep := evaluate_let_of_binds hderived hlet htracing hlambda hbinds env self n
    have hless :=
      rel_bindOver config (Nat.le_add_right (n + 1) 2) (Nat.le_add_right n 3) env pairs body
    exact (PrecedesAt.of_eq hdeep).trans (hless.1 s)

end Form

/-- **A `let` binds side by side**, whatever the environment binds its tag or that of the `lambda`
it stands for to. If its bindings are no pairs of a name and an expression, if a name occurs twice
or if there is no body, then that is reported, and nothing is evaluated. Otherwise a run is one of
the direct reading: with as many levels it ends as that does, unless it is nested too deeply, and
the direct reading ends as it does with three levels more, unless that is nested too deeply. Where a
run ends for that reason, what it recorded is the beginning of what the other one records. -/
theorem evaluates_bindings (config : Config) (htracing : config.tracing = false)
    (hderived : Derived.ofTag? config.derived "let" = some .binding) (s : State)
    (hlet : s.registry.get? "let" = none) (hlambda : s.registry.get? "lambda" = some .lambda)
    (env : Env) (operands : List Value) (self : Option Identity) :
    let form := Value.list (.symbol "let" :: operands) self
    (∀ pairs body, Derived.Binds operands pairs body → ∀ levels,
        PrecedesAt s ((machine config levels).evaluate form env)
            ((machine config levels).evaluateBinding env pairs body) ∧
          PrecedesAt s ((machine config levels).evaluateBinding env pairs body)
            ((machine config (levels + 3)).evaluate form env)) ∧
      ((¬ ∃ pairs body, Derived.Binds operands pairs body) → ∃ fault, ∀ levels,
        (machine config (levels + 3)).evaluate form env s
          = .error (.malformed fault) s.closed) := by
  intro form
  have hsealed : s.closed.registry.isSealed = true := rfl
  constructor
  · intro pairs body hbinds levels
    -- one more level does not change a run that ends, which gives the second half
    have hmore := rel_bindOver config (Nat.le_succ levels) (Nat.le_refl levels) env pairs body
    have hdeep := evaluate_let_of_binds hderived hlet htracing hlambda hbinds env self levels
    exact ⟨precedesAt_evaluateBinding hderived hlet htracing hlambda hbinds env self levels,
      (hmore.1 s).trans (.of_eq hdeep.symm)⟩
  · intro hnone
    cases hplain : Derived.combination (.symbol "let" :: operands) with
    -- the rewriting itself reports it, before anything is evaluated
    | error fault =>
      refine ⟨fault, fun levels => ?_⟩
      rw [evaluate_machine_succ, evaluateStep_derived hlet hderived, Derived.desugar, hplain]
    | ok plain =>
      -- the names are all that the rewriting has not checked
      obtain ⟨pairs, body, hpairs, rfl⟩ := (Derived.combination_eq_ok_iff (.symbol "let")).1 hplain
      have hdistinct : ¬ (pairs.map Prod.fst).Nodup := fun h => hnone ⟨pairs, body, hpairs, h⟩
      -- the procedure that is applied would have a name twice, and is refused before the operands
      have hreported : ∃ fault, ∀ levels, (machine config (levels + 2)).evaluate
          (Derived.application pairs body) env s.closed = .error (.malformed fault) s.closed :=
        evaluate_application_of_not_nodup hsealed hlambda hpairs.body hdistinct
      obtain ⟨fault, hfault⟩ := hreported
      refine ⟨fault, fun levels => ?_⟩
      rw [evaluate_let_of_pairs hderived hlet hpairs]
      exact hfault levels

/-- A `let` with a name that occurs twice, and one that binds two names, writes what it binds to the
second one and has the value of the first one. -/
theorem evaluates_bindings_display : ∃ s, Session.start SpecialForm.registry false false = .ok s ∧
    let config : Config := ⟨Derived.all, false⟩
    let display := fun v => Value.ofList [.symbol "display", v]
    let pair := fun name v => Value.ofList [.symbol name, v]
    let twice : List Value := [.ofList [pair "x" (display (.string "a")), pair "x" (.string "b")],
      .symbol "x"]
    let operands : List Value :=
      [.ofList [pair "x" (display (.string "a")), pair "y" (.string "b")],
      display (.symbol "y"), .symbol "x"]
    let pairs := [("x", display (.string "a")), ("y", .string "b")]
    let body := [display (.symbol "y"), .symbol "x"]
    (∃ fault, (machine config 3).evaluate (.ofList (.symbol "let" :: twice)) s.global s.state
        = .error (.malformed fault) s.state.closed) ∧
      ¬ Exhausted ((machine config 3).evaluateBinding s.global pairs body s.state) ∧
      (machine config 6).evaluate (.ofList (.symbol "let" :: operands)) s.global s.state
        = (machine config 3).evaluateBinding s.global pairs body s.state ∧
      ((machine config 6).evaluate (.ofList (.symbol "let" :: operands)) s.global).Ensures s.state
        (fun v t => v.write = "ok" ∧ t.events.toList = [.output "a", .output "b"])
        fun _ _ => False := by
  obtain ⟨s, hstart, -⟩ := Session.exists_start_bare false
  refine ⟨s, hstart, ?_⟩
  intro config display pair twice operands pairs body
  have hderived : Derived.ofTag? config.derived "let" = some .binding := by decide
  have hlet : s.state.registry.get? "let" = none := by
    cases hstart
    decide +kernel
  have hlambda : s.state.registry.get? "lambda" = some .lambda := by
    cases hstart
    decide +kernel
  -- three levels are enough for the body
  have hends : ¬ Exhausted ((machine config 3).evaluateBinding s.global pairs body s.state) := by
    cases hstart
    decide +kernel
  have hbinds : Derived.Binds operands pairs body :=
    ⟨⟨⟨_, none, rfl, .cons ⟨none, rfl⟩ (.cons ⟨none, rfl⟩ .nil)⟩, nofun⟩, by decide⟩
  -- the same name twice is no binding
  have hnone : ¬ ∃ pairs body, Derived.Binds twice pairs body := by
    rintro ⟨pairs, body, ⟨⟨bindings, self, heq, hpairs⟩, -⟩, hdistinct⟩
    obtain ⟨rfl, -⟩ := Value.list.inj (List.cons.inj heq).1
    have hsplit := Derived.splitBindings_eq_ok_iff.2 ⟨pairs, hpairs, rfl⟩
    have hnames : (pairs.map Prod.fst).map Value.symbol = [.symbol "x", .symbol "x"] :=
      (congrArg Prod.fst (Except.ok.inj hsplit)).symm
    have htwice := hdistinct.map fun _ _ h => Value.symbol.inj h
    rw [hnames] at htwice
    exact (List.nodup_cons.1 htwice).1 List.mem_cons_self
  have hwrong := evaluates_bindings config rfl hderived s.state hlet hlambda s.global twice none
  have hright := evaluates_bindings config rfl hderived s.state hlet hlambda s.global operands none
  obtain ⟨fault, hfault⟩ := hwrong.2 hnone
  refine ⟨⟨fault, hfault 0⟩, hends,
    ((hright.1 pairs body hbinds) 3).2.eq_of_not_exhausted hends, ?_⟩
  cases hstart
  decide +kernel

end Machine

end SmallLisp
