import Mathlib.Data.List.Permutation
import SmallLisp.Proofs.Discipline.Registry
import SmallLisp.Proofs.Relabelling.Definition
import SmallLisp.Proofs.Run.Calls
import SmallLisp.Proofs.Session.Invariant

/-!
# Defining a procedure is binding a lambda

To define a procedure is to bind a name to a lambda, except that the procedure is told its name. So
a program in which such definitions are spelled out runs in the same way, up to the names of
procedures and to the numbers of objects (`Session.program_respelled`). What a procedure is called
when it is defined shows in texts and nowhere else.

The induction is over the program (`Session.agree_program`). A run of one expression is compared
with the run of the same expression, relabelled, or with the run of the other spelling of a
definition, after which the relabelling is another one (`Session.agree_expression`). In between it
is needed that every object in the store has received its number and that no form is registered.

That a text can differ only where a compound procedure is displayed is told by interrupting the
first run: where the texts differ, it ends if it is not allowed to display a compound procedure
there (`Machine.DisplaysCompound`).
-/

namespace SmallLisp

open Value Eval

/-! ### Interrupted runs -/

/-- Where interruptions all end in the same failure, they end a run in it or make no difference. -/
theorem Simulation.machines_interruptedLevels (stops : State → Value → List Value → Bool)
    (refusal : Failure) (config : Config) (levels : Nat) :
    (Simulation.refusal refusal).Machines (machine config levels)
      (Machine.interruptedLevels stops (fun _ => refusal) config levels) := by
  induction levels with
  | zero => exact ⟨fun _ _ => Simulation.refl _ _, fun _ _ => Simulation.refl _ _⟩
  | succ levels ih =>
    constructor
    · exact Simulation.evaluateStep ih config
    · intro procedure arguments s
      -- an application is refused at once, or takes the step of the machine below
      cases hstops : stops s procedure arguments with
      | true => exact .inr ⟨s, Machine.apply_interruptedLevels_of_stops hstops⟩
      | false =>
        rw [Machine.apply_interruptedLevels_of_not_stops hstops]
        exact Simulation.applyStep ih config procedure arguments s

/-- Concealing either ends a run in the refusal or makes no difference to it. -/
theorem Simulation.machines_concealing (places : Nat → Bool) (refusal : Failure) (config : Config)
    (levels : Nat) :
    (Simulation.refusal refusal).Machines (machine config levels)
      (Machine.concealing places refusal config levels) :=
  machines_interruptedLevels (Machine.showsAt places) refusal config levels

/-- The run displays a compound procedure when so many texts have been written: if it is not allowed
to, it ends there, whatever failure it is to end in. -/
def Machine.DisplaysCompound {α : Type} (config : Config) (levels : Nat) (run : Machine → Eval α)
    (s : State) (place : Nat) : Prop :=
  ∀ refusal, ∃ t, run (concealing (· == place) refusal config levels) s = .error refusal t

/-- Evaluations register no forms. -/
theorem Machine.get?_registry_evaluateFresh (config : Config) (levels : Nat) (env : Env)
    (e : Value) (s : State) (tag : String) :
    (((machine config levels).evaluateFresh env e).finalState s).registry.get? tag
      = s.registry.get? tag := by
  have hleads := (Footprint.sealing _).leads_evaluate config levels (e.settle s.nextIdentity).1 env
    { s with nextIdentity := (e.settle s.nextIdentity).2 }
  exact congrArg (Table.get? · tag) hleads.handlers

/-! ### One expression -/

namespace Session

/-- A twinning by a relabelling that shifts all numbers that are still to be given out. -/
def twinning (φ : Relabelling) {offset next : Identity} (h : φ.ShiftsFrom offset next)
    (limit : Identity) (places : Nat → Bool) (refusal : Failure) : Twinning where
  toRelabelling := φ
  start := next
  offset := offset
  limit := limit
  shifts := h limit
  places := places
  refusal := refusal

/-- The run ended in this failure, and there was a place at which it may have been refused. -/
abbrev Refused (places : Nat → Bool) (refusal failure : Failure) : Prop :=
  failure = refusal ∧ ∃ place, places place = true

/-- The state of a run before an expression, with the state of the other run. -/
structure Linked (φ : Relabelling) (offset : Identity) (places : Nat → Bool) (s s' : State) : Prop
    extends s.Mirrors φ offset places s' where
  shifts : φ.ShiftsFrom offset s.nextIdentity
  numbered : s.Numbered
  define : s.registry.get? "define" = some .define
  lambda : s.registry.get? "lambda" = some .lambda

variable {φ : Relabelling} {offset : Identity} {places : Nat → Bool} {s s' : State}
  {config : Config} {levels : Nat} {env : Env} {e d : Value} {es ds : List Value}

/-- **Two spellings of an expression** are run in the same way, up to a relabelling that goes on
from the one before. -/
theorem agree_expression (hlinked : Linked φ offset places s s') (h : Respelled e d)
    (hbelow : ∀ i ∈ e.identities, i < s.nextIdentity) (refusal : Failure) (config : Config)
    (levels : Nat) (env : Env) :
    ∃ ψ offset', (∀ i < s.nextIdentity, ψ.object i = φ.object i ∧ ψ.name i = φ.name i) ∧
      Machine.AgreeUnder ψ offset' places (Refused places refusal)
        ((Machine.concealing places refusal config (levels + 2)).evaluateFresh env e s)
        ((SmallLisp.machine config (levels + 2)).evaluateFresh env (d.relabel φ) s') := by
  let m := Machine.concealing places refusal config (levels + 1)
  cases h with
  | same =>
    let x := (Machine.concealing places refusal config (levels + 2)).evaluateFresh env e
    -- the same expression on both sides: the run has a twin up to the numbers it uses
    let T := twinning φ hlinked.shifts (x.finalState s).nextIdentity places refusal
    have htwins := T.twins_evaluateFresh config (levels + 2) env e s
    have hagree := htwins.agree s' (Nat.le_refl _) hlinked.toMirrors (Nat.le_refl _)
    refine ⟨φ, offset, fun _ _ => ⟨rfl, rfl⟩, hagree.imp (fun _ hrefused => hrefused) ?_ ?_⟩
    · intro v t t' hx hmirrors
      have hle : s.nextIdentity ≤ t.nextIdentity := finalState_of_ok hx ▸ htwins.le
      exact ⟨hmirrors, hlinked.shifts.mono hle⟩
    · intro _ t t' _ hmirrors
      exact ⟨hmirrors.toAlike, hmirrors.texts⟩
  -- the two spellings of a definition, which differ in the identities they use and in the name that
  -- is recorded
  | definition hname hself hself' =>
    obtain ⟨ψ, offset', hsame, hagree⟩ := Machine.agree_definition hlinked.toMirrors hlinked.shifts
      hlinked.numbered hlinked.define hlinked.lambda hself config m levels env hname hself' hbelow
    exact ⟨ψ, offset', hsame, hagree.imp (fun _ => False.elim) (fun _ _ _ _ h => h)
      fun _ _ _ _ h => h⟩

/-- An expression that is not refused leaves states that the next one can start from. -/
theorem Linked.next {ψ : Relabelling} {offset' : Identity} {t t' : State} {v : Value}
    (hlinked : Linked φ offset places s s') (hbelow : ∀ i ∈ e.identities, i < s.nextIdentity)
    {refusal : Failure}
    (hrun : (Machine.concealing places refusal config levels).evaluateFresh env e s = .ok v t)
    (hmirrors : t.Mirrors ψ offset' places t') (hshifts : ψ.ShiftsFrom offset' t.nextIdentity) :
    Linked ψ offset' places t t' ∧ s.nextIdentity ≤ t.nextIdentity := by
  let x := (SmallLisp.machine config levels).evaluateFresh env e
  -- the run was not refused, so nothing was concealed in it
  have hplain : x s = .ok v t := by
    let S := Simulation.refusal refusal
    have hrel : S.Rel x ((Machine.concealing places refusal config levels).evaluateFresh env e) :=
      S.bind (S.refl _) fun settled =>
        (Simulation.machines_concealing places refusal config levels).evaluate settled env
    rcases hrel s with hsame | ⟨u, hrefused⟩
    · exact hsame.symm.trans hrun
    · rw [hrun] at hrefused
      cases hrefused
  have ht : x.finalState s = t := finalState_of_ok hplain
  have hregistry := Machine.get?_registry_evaluateFresh config levels env e s
  constructor
  · refine ⟨hmirrors, hshifts, ?_, ?_, ?_⟩
    · exact ht ▸ hlinked.numbered.evaluateFresh config levels env hbelow
    · rw [← ht, hregistry, hlinked.define]
    · rw [← ht, hregistry, hlinked.lambda]
  · exact ht ▸ Machine.le_nextIdentity_evaluateFresh config levels env e s

/-! ### Programs -/

theorem relabel_eq_of_below {ψ : Relabelling} {next : Identity}
    (hsame : ∀ i < next, ψ.object i = φ.object i ∧ ψ.name i = φ.name i)
    (hbelow : ∀ d ∈ ds, ∀ i ∈ d.identities, i < next) :
    ds.map (relabel φ) = ds.map (relabel ψ) :=
  List.map_congr_left fun d hd =>
    (relabel_congr d fun i hi => hsame i (hbelow d hd i hi)).symm

/-- **Two spellings of a program** are run in the same way. -/
theorem agree_program (h : List.Forall₂ Respelled es ds) (hlinked : Linked φ offset places s s')
    (hbelow : ∀ e ∈ es, ∀ i ∈ e.identities, i < s.nextIdentity) (last : Option Value)
    (refusal : Failure) (config : Config) (levels : Nat) (env : Env) :
    ∃ ψ : Relabelling, (∀ i < s.nextIdentity, ψ.object i = φ.object i) ∧
      Agree (Refused places refusal) (fun t t' => t.Alike ψ t' ∧ t.SameTexts places t')
        (fun t t' => t.Alike ψ t' ∧ t.SameTexts places t') (Option.map (relabel ψ))
        (program (Machine.concealing places refusal config (levels + 2)) env last es s)
        (program (SmallLisp.machine config (levels + 2)) env (last.map (relabel φ))
          (ds.map (relabel φ)) s') := by
  induction h generalizing φ offset s s' last with
  | nil => exact ⟨φ, fun _ _ => rfl, .ok last ⟨hlinked.toAlike, hlinked.texts⟩⟩
  | @cons e d es ds hhead htail ih =>
    obtain ⟨he, hes⟩ := List.forall_mem_cons.1 hbelow
    obtain ⟨ψ, offset', hsame, hagree⟩ :=
      agree_expression hlinked hhead he refusal config levels env
    rw [List.map_cons, program_cons, program_cons]
    generalize hfirst :
      (Machine.concealing places refusal config (levels + 2)).evaluateFresh env e s = r at hagree
    generalize hsecond :
      (SmallLisp.machine config (levels + 2)).evaluateFresh env (d.relabel φ) s' = r' at hagree
    cases hagree with
    | refused hrefused t =>
      -- the rest of the first program is not run, and that of the second one does not matter
      rw [bind_of_error hfirst]
      exact ⟨φ, fun _ _ => rfl, .refused hrefused t _⟩
    | error hcode hstates =>
      rw [bind_of_error hfirst, bind_of_error hsecond]
      exact ⟨ψ, fun i hi => (hsame i hi).1, .error hcode hstates⟩
    | @ok v t t' hstates =>
      rw [bind_of_ok hfirst, bind_of_ok hsecond]
      obtain ⟨hnext, hle⟩ := hlinked.next he hfirst hstates.1 hstates.2
      have hothers : ∀ e ∈ es, ∀ i ∈ e.identities, i < t.nextIdentity :=
        fun e he i hi => Nat.lt_of_lt_of_le (hes e he i hi) hle
      -- the relabelling of the rest goes on from that of the first expression
      obtain ⟨χ, hlater, hrest⟩ := ih hnext hothers (some v)
      have hds : ∀ d ∈ ds, ∀ i ∈ d.identities, i < s.nextIdentity :=
        forall_mem_of_forall₂ htail hes fun _ _ he hrespelled i hi =>
          he i (hrespelled.identities_subset hi)
      rw [relabel_eq_of_below hsame hds]
      exact ⟨χ, fun i hi => (hlater i (Nat.lt_of_lt_of_le hi hle)).trans (hsame i hi).1, hrest⟩

end Session

/-! ### Other names -/

/-- Other names for the procedures that have a number below a bound. -/
def Relabelling.naming (names : Identity → Option String → Option String) (bound : Identity) :
    Relabelling where
  object := id
  name i := if i < bound then names i else id
  injective := Function.injective_id

theorem Relabelling.shiftsFrom_naming (names : Identity → Option String → Option String)
    (bound : Identity) : (naming names bound).ShiftsFrom 0 bound := by
  intro limit i hi _
  have hname : (naming names bound).name i = id := if_neg (Nat.not_lt_of_le hi)
  exact ⟨rfl, fun name => congrFun hname name⟩

/-- The state in which the procedures have other recorded names. -/
def State.renamed (names : Identity → Option String → Option String) (s : State) : State :=
  { s with store := s.store.relabel (.naming names s.nextIdentity) }

/-- The value in which the procedures that the state knows have other recorded names. -/
def Value.renamed (names : Identity → Option String → Option String) (s : State) (v : Value) :
    Value :=
  v.relabel (.naming names s.nextIdentity)

namespace Session

/-- Two programs, each run in a state of its own, do the same up to the names of procedures and the
numbers of objects that are made on the way. -/
structure SameUpToNames (config : Config) (levels : Nat) (env : Env) (s s' : State)
    (es ds : List Value) : Prop where
  /-- After as many expressions, both have failed with the same code or both have the same value,
  and their frames hold the same values. -/
  ends : ∀ count, ∃ φ : Relabelling, (∀ i < s.nextIdentity, φ.object i = i) ∧
    Agree (fun _ => False) (State.Alike φ) (State.Alike φ) (Option.map (relabel φ))
      (program (SmallLisp.machine config levels) env none (es.take count) s)
      (program (SmallLisp.machine config levels) env none (ds.take count) s')
  /-- Both write the same texts, except where a compound procedure is displayed. -/
  texts : ∀ place,
    ((program (SmallLisp.machine config levels) env none ds).finalState s').outputs[place]?
        = ((program (SmallLisp.machine config levels) env none es).finalState s).outputs[place]? ∨
      Machine.DisplaysCompound config levels (program · env none es) s place

/-- A relabelling under which the states correspond shows that the programs do the same. -/
theorem sameUpToNames (hlinked : ∀ places, Linked φ offset places s s')
    (hobject : ∀ i < s.nextIdentity, φ.object i = i) (h : List.Forall₂ Respelled es ds)
    (hbelow : ∀ e ∈ es, ∀ i ∈ e.identities, i < s.nextIdentity) (config : Config) (levels : Nat)
    (env : Env) :
    SameUpToNames config (levels + 2) env s s' es (ds.map (relabel φ)) := by
  constructor
  · intro count
    -- no text matters here, so nothing is concealed
    let nowhere : Nat → Bool := fun _ => false
    have htake : List.Forall₂ Respelled (es.take count) (ds.take count) :=
      List.forall₂_take count h
    have hbelow' : ∀ e ∈ es.take count, ∀ i ∈ e.identities, i < s.nextIdentity :=
      fun e he => hbelow e (List.mem_of_mem_take he)
    obtain ⟨ψ, hsame, hagree⟩ := agree_program htake (hlinked nowhere) hbelow' none .exhausted
      config levels env
    rw [Machine.concealing_of_no_places (fun _ => rfl), List.map_take] at hagree
    refine ⟨ψ, fun i hi => (hsame i hi).trans (hobject i hi), hagree.imp ?_ ?_ ?_⟩
    · rintro failure ⟨-, place, hplace⟩
      cases hplace
    · exact fun _ _ _ _ hstates => hstates.1
    · exact fun _ _ _ _ hstates => hstates.1
  · intro place
    let here : Nat → Bool := (· == place)
    let m := SmallLisp.machine config (levels + 2)
    -- either the texts are the same, or every refusal at this place ends the run
    refine or_iff_not_imp_left.2 fun hdiffer refusal => ?_
    obtain ⟨ψ, -, hagree⟩ := agree_program h (hlinked here) hbelow none refusal config levels env
    rcases hagree.finalState with ⟨failure, t, hrefused, rfl, -⟩ | hstates
    · exact ⟨t, hrefused⟩
    · have hrel := (Simulation.refusal refusal).program
        (Simulation.machines_concealing here refusal config (levels + 2)) config env none es
      rcases hrel s with hplain | hrefused
      · -- a run in which nothing was refused has written the same text there
        refine absurd ?_ hdiffer
        have hfinal : (program m env none es).finalState s
            = (program (Machine.concealing here refusal config (levels + 2)) env none es).finalState
              s := by
          rw [Eval.finalState, Eval.finalState, hplain]
        rw [hfinal]
        exact hstates.2 place (beq_self_eq_true place)
      · exact hrefused

/-- **To define a procedure is to bind a lambda.** However many definitions of procedures are
spelled out in a program, it ends in the same value or in a failure with the same code after the
same expression, it leaves the same frames, and it writes as many texts and the same ones, all up to
the names of procedures. For a name is seen in texts only: the program does the same where the
procedures had other names before. The states of sessions are numbered, and what is read from text
holds no objects yet (`numbered_startAt`, `numbered_run`, `identities_of_read`). -/
theorem program_respelled (config : Config) {levels : Nat} (hlevels : 2 ≤ levels) (env : Env)
    {s : State} (hs : s.Numbered) (hdefine : s.registry.get? "define" = some .define)
    (hlambda : s.registry.get? "lambda" = some .lambda) {es ds : List Value}
    (hbelow : ∀ e ∈ es, ∀ i ∈ e.identities, i < s.nextIdentity)
    (h : List.Forall₂ Respelled es ds) (names : Identity → Option String → Option String) :
    SameUpToNames config levels env s s es ds ∧
      SameUpToNames config levels env s (s.renamed names) es (es.map (renamed names s)) := by
  obtain ⟨levels, rfl⟩ := Nat.exists_eq_add_of_le' hlevels
  constructor
  · -- both start from the same state
    have hlinked : ∀ places, Linked .refl 0 places s s := fun _ =>
      { store := s.store.relabel_refl.symm
        registry := rfl
        length := rfl
        texts := fun _ _ => rfl
        nextIdentity := rfl
        shifts := Relabelling.shiftsFrom_refl.mono (Nat.zero_le _)
        numbered := hs
        define := hdefine
        lambda := hlambda }
    have hsame := sameUpToNames hlinked (fun _ _ => rfl) h hbelow config levels env
    have hmap : ds.map (relabel .refl) = ds :=
      (List.map_congr_left fun d _ => relabel_refl d).trans ds.map_id
    rwa [hmap] at hsame
  · -- the second state differs in recorded names alone
    have hlinked : ∀ places,
        Linked (.naming names s.nextIdentity) 0 places s (s.renamed names) := fun _ =>
      { store := rfl
        registry := rfl
        length := rfl
        texts := fun _ _ => rfl
        nextIdentity := rfl
        shifts := Relabelling.shiftsFrom_naming names s.nextIdentity
        numbered := hs
        define := hdefine
        lambda := hlambda }
    have hrefl : List.Forall₂ Respelled es es := List.forall₂_same.2 fun e _ => .same e
    exact sameUpToNames hlinked (fun _ _ => rfl) hrefl hbelow config levels env

/-- A procedure that is displayed, after a text. Without the names of procedures the second text is
another one. -/
theorem program_respelled_display : ∃ s es ds, start SpecialForm.registry false false = .ok s ∧
    Source.read "(define (f x) (display x)) (f \"a\") (f f)" none = .ok es ∧
    Source.read "(define f (lambda (x) (display x))) (f \"a\") (f f)" none = .ok ds ∧
    2 ≤ s.limit ∧ s.state.Numbered ∧ s.state.registry.get? "define" = some .define ∧
    s.state.registry.get? "lambda" = some .lambda ∧
    (∀ e ∈ es, ∀ i ∈ e.identities, i < s.state.nextIdentity) ∧ List.Forall₂ Respelled es ds ∧
    SameUpToNames s.config s.limit s.global s.state s.state es ds ∧
    SameUpToNames s.config s.limit s.global s.state (s.state.renamed fun _ _ => none) es
      (es.map (renamed (fun _ _ => none) s.state)) := by
  obtain ⟨s, hstart, -⟩ := exists_start_bare false
  -- the procedure displays a string and then itself, which shows its name
  let body : List Value := [.ofList [.symbol "display", .symbol "x"]]
  let others : List Value :=
    [.ofList [.symbol "f", .string "a"], .ofList [.symbol "f", .symbol "f"]]
  let es := procedureDefinition (.symbol "f") [.symbol "x"] body none none :: others
  let ds := lambdaDefinition (.symbol "f") [.symbol "x"] body :: others
  have hread : Source.read "(define (f x) (display x)) (f \"a\") (f f)" none = .ok es := by cbv
  have hread' :
      Source.read "(define f (lambda (x) (display x))) (f \"a\") (f f)" none = .ok ds := by
    cbv
  have hlevels : 2 ≤ s.limit := by
    cases hstart
    decide
  have hs : s.state.Numbered := numbered_startAt hstart
  have hdefine : s.state.registry.get? "define" = some .define := by
    cases hstart
    decide +kernel
  have hlambda : s.state.registry.get? "lambda" = some .lambda := by
    cases hstart
    decide +kernel
  have hbelow : ∀ e ∈ es, ∀ i ∈ e.identities, i < s.state.nextIdentity := by
    intro e he i hi
    rw [identities_of_read hread e he] at hi
    cases hi
  -- what was read has no identities yet
  have hunsettled : ∀ {p : Prop}, (none : Option Identity).isSome = true → p :=
    fun hsome => absurd hsome Bool.false_ne_true
  have hrespelled : List.Forall₂ Respelled es ds :=
    .cons (.definition rfl hunsettled hunsettled) (List.forall₂_same.2 fun e _ => .same e)
  exact ⟨s, es, ds, hstart, hread, hread', hlevels, hs, hdefine, hlambda, hbelow, hrespelled,
    program_respelled s.config hlevels s.global hs hdefine hlambda hbelow hrespelled fun _ _ =>
      none⟩

end Session

end SmallLisp
