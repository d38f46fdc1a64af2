import SmallLisp.Proofs.Discipline.Registry
import SmallLisp.Proofs.Run.Dispatch
import SmallLisp.Proofs.Run.Levels

/-!
# Clauses from left to right

A `cond` stands for nested `if`s, in which several actions are a `begin`. What it means can be said
without them (`Machine.firstClause`): evaluate the tests one after the other, up to the first that
is truthy, and then the actions of its clause. All clauses are looked at before that, and the
leftmost one that is wrong (`Derived.firstFault?`) is reported instead.

The evaluator goes through the nested forms, each of which takes a level. So it can be nested too
deeply where the direct reading is not, but in no other way do they differ
(`Machine.evaluates_clauses`): by the order of `Proofs.Run.Levels` the nested forms come before the
direct reading, and that comes before the nested forms with two more levels than there are clauses.
Both halves are inductions over how clauses are nested (`Derived.Nests`), and their step is the same
(`Machine.precedesAt_branch`). What is carried along is that a test, whatever it does, leaves the
registry as it is, so that `if` and `begin` still mean there what they did.
-/

namespace SmallLisp

/-! ### Mistakes in clauses -/

namespace Derived

/-- What is wrong with a clause that has the given clauses after it. -/
def clauseFault? (clause : Value) (later : List Value) : Option SyntaxFault :=
  match clause with
  | .list (test :: _) _ =>
    if test.isSymbolNamed "else" && !later.isEmpty then some .elseNotLast else none
  | _ => some .condClauseShape

/-- What is wrong with the leftmost clause with which something is wrong. -/
def firstFault? : List Value → Option SyntaxFault
  | [] => none
  | clause :: later => (clauseFault? clause later).or (firstFault? later)

/-- The clauses of a `cond`, none of them wrong, with the forms that they are nested in. -/
inductive Nests : List Value → Value → Prop where
  | none : Nests [] (.boolean false)
  | otherwise {test : Value} (actions : List Value) (self : Option Identity) :
      test.isSymbolNamed "else" = true → Nests [.list (test :: actions) self] (sequence actions)
  | clause {test nested : Value} {later : List Value} (actions : List Value)
      (self : Option Identity) :
      test.isSymbolNamed "else" = false → Nests later nested →
      Nests (.list (test :: actions) self :: later)
        (.ofList [.symbol "if", test, sequence actions, nested])

/-- **The leftmost mistake is reported**, and without one the clauses are nested. -/
theorem nestClauses_spec (clauses : List Value) :
    match firstFault? clauses with
    | some fault => nestClauses clauses = .error fault
    | none => ∃ nested, nestClauses clauses = .ok nested ∧ Nests clauses nested := by
  induction clauses with
  | nil => exact ⟨_, rfl, .none⟩
  | cons clause later ih =>
    match clause with
    | .list (test :: actions) self =>
      rw [firstFault?, clauseFault?, nestClauses]
      cases helse : test.isSymbolNamed "else" with
      | true =>
        -- an `else` clause is only allowed at the end
        cases later with
        | nil => exact ⟨_, rfl, .otherwise actions self helse⟩
        | cons => rfl
      | false =>
        -- nothing is wrong with this clause, so the leftmost mistake is one of the later clauses
        cases hfault : firstFault? later with
        | some fault =>
          rw [hfault] at ih
          simp [ih, Except.map]
        | none =>
          rw [hfault] at ih
          obtain ⟨nested, hnested, hnests⟩ := ih
          exact ⟨_, by rw [hnested]; rfl, .clause actions self helse hnests⟩
    | .list [] _ | .number _ _ | .string _ | .boolean _ | .symbol _ | .primitive _ _
    | .compound _ _ _ _ _ | .transformer _ _ _ _ _ => rfl

end Derived

/-! ### The direct reading -/

namespace Machine

open Eval

/-- Evaluates the actions of a clause. Without any there is the empty list in their place. -/
def clauseActions (m : Machine) (env : Env) : List Value → Eval Value
  | [] => fail (.unknownExpression "()")
  | action :: actions => m.evaluateSequence env (action :: actions)

/-- Evaluates the tests of the clauses from left to right up to the first one that is truthy, and
then the actions of its clause. An `else` counts as truthy and is not evaluated. False if no test is
truthy. -/
def firstClause (m : Machine) (env : Env) : List Value → Eval Value
  | [] => pure (.boolean false)
  | .list (test :: actions) _ :: later =>
    if test.isSymbolNamed "else" then m.clauseActions env actions
    else do
      if (← m.evaluate test env).isTruthy then m.clauseActions env actions
      else m.firstClause env later
  | _ :: _ => malformed .condClauseShape

/-- The direct reading of a `cond`. As in every evaluation, the registry is closed first. -/
def evaluateClauses (m : Machine) (env : Env) (clauses : List Value) : Eval Value := do
  closeRegistry
  m.firstClause env clauses

variable {env : Env}

theorem asks_clauseActions (actions : List Value) : Asks fun m => m.clauseActions env actions := by
  cases actions with
  | nil => exact asks_fail _
  | cons action actions => exact asks_evaluateSequence env (action :: actions)

theorem asks_firstClause (clauses : List Value) : Asks fun m => m.firstClause env clauses := by
  induction clauses with
  | nil => exact asks_pure _
  | cons clause later ih =>
    unfold firstClause
    -- the clauses are asked one after the other, each for its test and then for its actions
    split
    · next heq => cases heq
    · next test actions self later' heq =>
      obtain ⟨-, rfl⟩ := List.cons.inj heq
      split
      · exact asks_clauseActions actions
      · refine .bind (.evaluate test env) fun v => ?_
        split
        · exact asks_clauseActions actions
        · exact ih
    · exact asks_malformed _

theorem asks_evaluateClauses (clauses : List Value) :
    Asks fun m => m.evaluateClauses env clauses :=
  .after isSilent_closeRegistry fun _ => asks_firstClause clauses

end Machine

/-! ### The registry of a run -/

/-- The registry is sealed, and has the forms that a `cond` stands for. -/
structure Registry.Branches (r : Registry SpecialForm) : Prop where
  isSealed : r.isSealed = true
  conditional : r.get? "if" = some .conditional
  sequence : r.get? "begin" = some .sequence

theorem Registry.Branches.of_evaluate {config : Config} {levels : Nat} {e v : Value} {env : Env}
    {s t : State} (hs : s.registry.Branches)
    (h : (machine config levels).evaluate e env s = .ok v t) :
    t.registry.Branches :=
  Machine.registry_of_evaluate h hs.isSealed ▸ hs

/-! ### The nested forms -/

namespace Machine

open Eval

variable {config : Config} {env : Env} {s : State}

theorem firstClause_of_else {test : Value} (helse : test.isSymbolNamed "else" = true) (m : Machine)
    (actions : List Value) (self : Option Identity) (later : List Value) :
    m.firstClause env (.list (test :: actions) self :: later) = m.clauseActions env actions := by
  rw [firstClause, if_pos helse]

theorem firstClause_of_test {test : Value} (htest : test.isSymbolNamed "else" = false) (m : Machine)
    (actions : List Value) (self : Option Identity) (later : List Value) :
    m.firstClause env (.list (test :: actions) self :: later)
      = m.evaluate test env >>= fun v =>
          if v.isTruthy then m.clauseActions env actions else m.firstClause env later := by
  rw [firstClause, if_neg (Bool.eq_false_iff.1 htest)]

/-- The actions of a clause as one form. -/
theorem evaluate_sequence (hs : s.registry.Branches) (levels : Nat) (action next : Value)
    (actions : List Value) :
    (machine config (levels + 1)).evaluate (Derived.sequence (action :: next :: actions)) env s
      = (machine config levels).clauseActions env (action :: next :: actions) s :=
  evaluate_special hs.isSealed hs.sequence levels (action :: next :: actions) none

theorem evaluate_empty (hsealed : s.registry.isSealed = true) (levels : Nat) :
    (machine config (levels + 1)).evaluate (Derived.sequence []) env s
      = (machine config (levels + 1)).clauseActions env [] s := by
  change (fail (.unknownExpression (Value.ofList []).write) : Eval Value) s.closed = _
  rw [State.closed_of_isSealed hsealed]
  rfl

/-- The actions of a clause as one form come before the actions one by one. -/
theorem precedesAt_clauseActions (hs : s.registry.Branches) (levels : Nat) (actions : List Value) :
    PrecedesAt s ((machine config levels).evaluate (Derived.sequence actions) env)
      ((machine config levels).clauseActions env actions) := by
  cases levels with
  | zero => exact precedesAt_exhausted ((asks_clauseActions actions).records config 0) _ env s
  | succ levels =>
    -- no action has the value of an empty sequence, one is evaluated as it is
    match actions with
    | [] => exact .of_eq (evaluate_empty hs.isSealed levels)
    | [action] => exact .of_eq rfl
    | action :: next :: actions =>
      exact (PrecedesAt.of_eq (evaluate_sequence hs levels action next actions)).trans
        ((asks_clauseActions _).precedesAt config (Nat.le_succ levels) s)

/-- The actions one by one come before the actions as one form, with one level more. -/
theorem clauseActions_precedesAt (hs : s.registry.Branches) (levels : Nat) (actions : List Value) :
    PrecedesAt s ((machine config levels).clauseActions env actions)
      ((machine config (levels + 1)).evaluate (Derived.sequence actions) env) := by
  match actions with
  | [] => exact .of_eq (evaluate_empty hs.isSealed levels).symm
  | [action] => exact (Asks.evaluate action env).precedesAt config (Nat.le_succ levels) s
  | action :: next :: actions => exact .of_eq (evaluate_sequence hs levels action next actions).symm

/-- **A test and its two branches**, with fewer levels and with more. -/
theorem precedesAt_branch (hs : s.registry.Branches) {n m : Nat} (hnm : n ≤ m) (test : Value)
    {x y z w : Eval Value} (hxy : ∀ t : State, t.registry.Branches → PrecedesAt t x y)
    (hzw : ∀ t : State, t.registry.Branches → PrecedesAt t z w) (hy : y.Records) (hw : w.Records) :
    PrecedesAt s ((machine config n).evaluate test env >>= fun v => if v.isTruthy then x else z)
      ((machine config m).evaluate test env >>= fun v => if v.isTruthy then y else w) := by
  refine ((Asks.evaluate test env).precedesAt config hnm s).bind (fun v t hv => ?_) fun v => ?_
  · -- the test may have done anything, but it registers no forms
    have ht : t.registry.Branches := hs.of_evaluate hv
    split
    · exact hxy t ht
    · exact hzw t ht
  · split
    · exact hy
    · exact hw

/-- The nested forms come before the direct reading. -/
theorem precedesAt_firstClause {clauses : List Value} {nested : Value}
    (h : Derived.Nests clauses nested)
    (hs : s.registry.Branches) (levels : Nat) :
    PrecedesAt s ((machine config levels).evaluate nested env)
      ((machine config levels).firstClause env clauses) := by
  induction h generalizing s levels with
  | none =>
    cases levels with
    | zero => exact precedesAt_exhausted ((asks_firstClause []).records config 0) _ env s
    | succ levels => exact .of_eq (congrArg (pure (Value.boolean false) : Eval Value)
        (State.closed_of_isSealed hs.isSealed))
  | otherwise actions self helse =>
    rw [firstClause_of_else helse]
    exact precedesAt_clauseActions hs levels actions
  | @clause test nested later actions self htest _ ih =>
    cases levels with
    | zero => exact precedesAt_exhausted ((asks_firstClause _).records config 0) _ env s
    | succ levels =>
      -- the parts of the nested form have one level less than those of the direct reading
      have hlevels : levels ≤ levels + 1 := Nat.le_succ levels
      rw [firstClause_of_test htest]
      refine (PrecedesAt.of_eq (evaluate_special hs.isSealed hs.conditional levels _ none)).trans ?_
      refine precedesAt_branch hs hlevels test (fun t ht => ?_) (fun t ht => ?_)
        ((asks_clauseActions actions).records config _) ((asks_firstClause later).records config _)
      · exact (precedesAt_clauseActions ht levels actions).trans
          ((asks_clauseActions actions).precedesAt config hlevels t)
      · exact (ih ht levels).trans ((asks_firstClause later).precedesAt config hlevels t)

/-- The direct reading comes before the nested forms, with a level more for each clause. -/
theorem firstClause_precedesAt {clauses : List Value} {nested : Value}
    (h : Derived.Nests clauses nested)
    (hs : s.registry.Branches) (levels : Nat) :
    PrecedesAt s ((machine config levels).firstClause env clauses)
      ((machine config (levels + clauses.length + 1)).evaluate nested env) := by
  induction h generalizing s with
  | none =>
    exact .of_eq (congrArg (pure (Value.boolean false) : Eval Value)
      (State.closed_of_isSealed hs.isSealed)).symm
  | otherwise actions self helse =>
    rw [firstClause_of_else helse]
    exact (clauseActions_precedesAt hs levels actions).trans
      ((Asks.evaluate _ env).precedesAt config (Nat.le_succ (levels + 1)) s)
  | @clause test nested later actions self htest _ ih =>
    rw [firstClause_of_test htest, List.length_cons, ← Nat.add_assoc]
    refine PrecedesAt.trans ?_
      (.of_eq (evaluate_special hs.isSealed hs.conditional (levels + later.length + 1) _ none).symm)
    -- a level is left over for each later clause, and the actions need only one
    have hlevels : levels + 1 ≤ levels + later.length + 1 :=
      Nat.succ_le_succ (Nat.le_add_right levels later.length)
    refine precedesAt_branch hs (Nat.le_of_succ_le hlevels) test (fun t ht => ?_)
      (fun t ht => ih ht) (records_evaluate config _ _ env) (records_evaluate config _ _ env)
    exact (clauseActions_precedesAt ht levels actions).trans
      ((Asks.evaluate _ env).precedesAt config hlevels t)

/-- **A `cond` means what its clauses say from left to right**, whatever the environment binds its
tag or those of the forms that it stands for to. If a clause is wrong, the leftmost one is reported,
and nothing is evaluated. If none is, then a run is one of the direct reading: with as many levels
it ends as that does, unless it is nested too deeply, and the direct reading ends as it does with
two more levels than there are clauses, unless that is nested too deeply. Where a run ends for that
reason, what it recorded is the beginning of what the other one records. -/
theorem evaluates_clauses (config : Config)
    (hderived : Derived.ofTag? config.derived "cond" = some .conditional) (s : State)
    (hcond : s.registry.get? "cond" = none) (hif : s.registry.get? "if" = some .conditional)
    (hbegin : s.registry.get? "begin" = some .sequence) (env : Env) (clauses : List Value)
    (self : Option Identity) :
    let form := Value.list (.symbol "cond" :: clauses) self
    match Derived.firstFault? clauses with
    | some fault => ∀ levels, (machine config (levels + 1)).evaluate form env s
        = .error (.malformed fault) s.closed
    | none => ∀ levels,
        PrecedesAt s ((machine config levels).evaluate form env)
            ((machine config levels).evaluateClauses env clauses) ∧
          PrecedesAt s ((machine config levels).evaluateClauses env clauses)
            ((machine config (levels + clauses.length + 2)).evaluate form env) := by
  intro form
  have hs : s.closed.registry.Branches := ⟨rfl, hif, hbegin⟩
  -- the rewriting looks at all clauses before anything is evaluated
  have hspec := Derived.nestClauses_spec clauses
  have hstep := fun m => evaluateStep_derived hcond hderived m clauses self env
  cases hfault : Derived.firstFault? clauses with
  | some fault =>
    intro levels
    rw [hfault] at hspec
    rw [evaluate_machine_succ, hstep, Derived.desugar, List.tail_cons, hspec]
  | none =>
    intro levels
    rw [hfault] at hspec
    obtain ⟨nested, hnested, hnests⟩ := hspec
    have hform : ∀ n, (machine config (n + 1)).evaluate form env s
        = (machine config n).evaluate nested env s.closed := by
      intro n
      rw [evaluate_machine_succ, hstep, Derived.desugar, List.tail_cons, hnested]
    -- from here on both run in the state whose registry is closed
    have hclauses : ∀ n, (machine config n).evaluateClauses env clauses s
        = (machine config n).firstClause env clauses s.closed := fun _ => rfl
    constructor
    · cases levels with
      | zero => exact precedesAt_exhausted ((asks_evaluateClauses clauses).records config 0) _ env s
      | succ levels =>
        exact ((precedesAt_firstClause hnests hs levels).congr (hform _) (hclauses _)).trans
          ((asks_evaluateClauses clauses).precedesAt config (Nat.le_succ levels) s)
    · exact (firstClause_precedesAt hnests hs levels).congr (hclauses _) (hform _)

/-- A `cond` with two wrong clauses after a right one, and one with nothing wrong that chooses its
second clause: it writes what the test and the first expression of that clause write, and has the
value of the second expression. -/
theorem evaluates_clauses_display : ∃ s, Session.start SpecialForm.registry true false = .ok s ∧
    let config : Config := ⟨Derived.all, true⟩
    let display := fun text => Value.ofList [.symbol "display", .string text]
    let wrong : List Value := [.ofList [display "a"], .ofList [], .string "b"]
    let clauses : List Value :=
      [.ofList [.boolean false, display "a"], .ofList [display "b", display "c", .string "d"],
        .ofList [.symbol "else"]]
    (machine config 1).evaluate (.ofList (.symbol "cond" :: wrong)) s.global s.state
        = .error (.malformed .condClauseShape) s.state.closed ∧
      ¬ Exhausted ((machine config 3).evaluateClauses s.global clauses s.state) ∧
      (machine config 8).evaluate (.ofList (.symbol "cond" :: clauses)) s.global s.state
        = (machine config 3).evaluateClauses s.global clauses s.state ∧
      ((machine config 8).evaluate (.ofList (.symbol "cond" :: clauses)) s.global).Ensures s.state
        (fun v t => v.write = "\"d\"" ∧ t.events.toList
          = [.trace "[trace] (display \"b\")", .output "b",
              .trace "[trace] (display \"c\")", .output "c"]) fun _ _ => False := by
  obtain ⟨s, hstart, -⟩ := Session.exists_start_bare true
  refine ⟨s, hstart, ?_⟩
  intro config display wrong clauses
  have hderived : Derived.ofTag? config.derived "cond" = some .conditional := by decide
  have hcond : s.state.registry.get? "cond" = none := by
    cases hstart
    decide +kernel
  have hif : s.state.registry.get? "if" = some .conditional := by
    cases hstart
    decide +kernel
  have hbegin : s.state.registry.get? "begin" = some .sequence := by
    cases hstart
    decide +kernel
  -- three levels are enough for the direct reading
  have hends : ¬ Exhausted ((machine config 3).evaluateClauses s.global clauses s.state) := by
    cases hstart
    decide +kernel
  have hwrong := evaluates_clauses config hderived s.state hcond hif hbegin s.global wrong none
  have hright := evaluates_clauses config hderived s.state hcond hif hbegin s.global clauses none
  refine ⟨hwrong 0, hends, (hright 3).2.eq_of_not_exhausted hends, ?_⟩
  cases hstart
  decide +kernel

end Machine

end SmallLisp
