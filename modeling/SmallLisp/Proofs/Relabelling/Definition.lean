import SmallLisp.Proofs.Relabelling.Numbering
import SmallLisp.Proofs.Run.Dispatch

/-!
# Two spellings of a definition

A procedure can be defined by a form that begins with its signature, or by binding its name to a
lambda. The second spelling needs one list more, but both settle into the same parts
(`Value.exists_settled_definitions`). Evaluated in a state and in the relabelled state, the two
forms fail together, each in its own check of the shape, or bind the name to procedures that are the
same but for the recorded name (`Machine.agree_definition`).

The relabelling is another one afterwards. Numbers from there on are higher by that one object more,
which is `Relabelling.raise`; and the new procedure loses its name, which is `Relabelling.unname`.
-/

namespace SmallLisp

/-! ### Both forms -/

namespace Value

/-- `(define (name parameter …) body …)` -/
def procedureDefinition (name : Value) (parameters body : List Value)
    (self self' : Option Identity) : Value :=
  list (symbol "define" :: list (name :: parameters) self' :: body) self

/-- `(define name (lambda (parameter …) body …))` -/
def lambdaDefinition (name : Value) (parameters body : List Value) : Value :=
  ofList [symbol "define", name, ofList (symbol "lambda" :: ofList parameters :: body)]

/-- That definition when its own lists have settled, as the first objects to do so. -/
def settledLambdaDefinition (name : String) (parameters body : List Value) (first : Identity) :
    Value :=
  list [symbol "define", symbol name,
    list (symbol "lambda" :: list parameters (some (first + 2)) :: body) (some (first + 1))]
    (some first)

/-- The definition of a procedure may be spelled out. What is in place of the name, the parameters
and the body may be anything, only not a list in place of the name: that list would be the signature
of another definition. The form may have been built before; then what it holds has settled. -/
inductive Respelled : Value → Value → Prop where
  | same (e : Value) : Respelled e e
  | definition {name : Value} {parameters body : List Value} {self self' : Option Identity}
      (hname : name.isList = false)
      (hself : self.isSome = true → self'.isSome = true ∧ body.all isSettled = true)
      (hself' : self'.isSome = true → (name :: parameters).all isSettled = true) :
      Respelled (procedureDefinition name parameters body self self')
        (lambdaDefinition name parameters body)

/-- The other spelling is made of the same objects, and of new ones. -/
theorem Respelled.identities_subset {e d : Value} (h : Respelled e d) :
    d.identities ⊆ e.identities := by
  cases h with
  | same => exact List.Subset.refl _
  | @definition name parameters body self self' _ _ _ =>
    intro i hi
    have hparts : i ∈ name.identities ∨ i ∈ identitiesIn parameters ∨ i ∈ identitiesIn body := by
      simpa [lambdaDefinition, ofList, identities, identitiesIn] using hi
    simp only [procedureDefinition, identities, identitiesIn, List.mem_append]
    tauto

/-- What settles stays the same, or is an object that receives its number. -/
theorem settle_cases (v : Value) (next : Identity) :
    v.isSettled = true ∧ (v.settle next).1 = v ∨
      (v.settle next).1.isSettled = true ∧ (v.settle next).1.typeName = v.typeName := by
  cases hself : v.isSettled with
  | true => exact .inl ⟨rfl, congrArg Prod.fst (settle_of_isSettled hself next)⟩
  | false =>
    right
    -- what is not settled yet is given an identity of its own
    cases v with
    | list elements self =>
      cases self with
      | none =>
        rw [settle_list]
        exact ⟨rfl, rfl⟩
      | some i => cases hself
    | compound name parameters body env self =>
      cases self with
      | none =>
        rw [settle]
        exact ⟨rfl, rfl⟩
      | some i => cases hself
    | number x self | primitive action self | transformer name literals clauses env self =>
      cases self with
      | none => exact ⟨rfl, rfl⟩
      | some i => cases hself
    | string text | boolean b | symbol name => cases hself

theorem isSettled_settle (v : Value) (next : Identity) : (v.settle next).1.isSettled = true := by
  rcases settle_cases v next with ⟨hsettled, hsame⟩ | ⟨hsettled, -⟩
  · exact hsame.symm ▸ hsettled
  · exact hsettled

theorem all_isSettled_settleAll (vs : List Value) (next : Identity) :
    (settleAll vs next).1.all isSettled = true := by
  induction vs generalizing next with
  | nil => rfl
  | cons v vs ih =>
    rw [settleAll, List.all_cons, isSettled_settle, ih]
    rfl

/-- What settles has numbers then that were given out. -/
theorem lt_of_mem_identities_settleAll {vs : List Value} {next : Identity}
    (h : ∀ i ∈ identitiesIn vs, i < next) :
    ∀ i ∈ identitiesIn (settleAll vs next).1, i < (settleAll vs next).2 := by
  let limit := (settleAll vs next).2
  have hsame : relabelAll (.above limit) vs = vs := by
    have hbelow : ∀ i ∈ identitiesIn vs, i < limit :=
      fun i hi => Nat.lt_of_lt_of_le (h i hi) (le_settleAll vs next)
    rw [relabelAll_congr vs (Relabelling.agreeOn_above hbelow), relabelAll_refl]
  -- the values settle in the same way when the numbers from the limit on are changed
  have hsettle := settleAll_relabel vs next (Relabelling.shifts_above next limit)
  rw [hsame, Nat.add_zero] at hsettle
  have hfixed : relabelAll (.above limit) (settleAll vs next).1 = (settleAll vs next).1 :=
    (congrArg Prod.fst hsettle).symm
  intro i hi
  have hobject := object_eq_of_relabelAll_eq _ hfixed i hi
  by_contra hnot
  have hraised : (Relabelling.above limit).object i = i + 1 :=
    Relabelling.raise_object_of_le _ _ 1 (Nat.le_of_not_lt hnot)
  exact Nat.succ_ne_self i (hraised.symm.trans hobject)

/-- The definition of a procedure settles part by part, after the lists around them. -/
theorem settle_procedureDefinition {name : Value} {parameters body : List Value}
    {self self' : Option Identity}
    (hself : self.isSome = true → self'.isSome = true ∧ body.all isSettled = true)
    (hself' : self'.isSome = true → (name :: parameters).all isSettled = true) (next : Identity) :
    ∃ fresh ≤ 2, ∃ own own',
      let signature := settleAll (name :: parameters) (next + fresh)
      let settled := settleAll body signature.2
      (procedureDefinition name parameters body self self').settle next
        = (list (symbol "define" :: list signature.1 own' :: settled.1) own, settled.2) := by
  -- a new form settles like its elements, once it is known how the signature does
  have hnew : ∀ (signature : List Value × Identity) own',
      (list (name :: parameters) self').settle (next + 1)
        = (list signature.1 own', signature.2) →
      (procedureDefinition name parameters body none self').settle next
        = (list (symbol "define" :: list signature.1 own' :: (settleAll body signature.2).1)
            (some next), (settleAll body signature.2).2) := by
    intro signature own' hsignature
    rw [procedureDefinition, settle_list, settleAll, settle_symbol]
    dsimp only
    rw [settleAll, hsignature]
  cases self with
  | some i =>
    obtain ⟨hsome, hbody⟩ := hself rfl
    refine ⟨0, Nat.zero_le 2, some i, self', ?_⟩
    intro signature settled
    -- a form that was built before does not settle again
    have hsignature : signature = (name :: parameters, next) :=
      settleAll_of_all_isSettled (hself' hsome) _
    have hsettled : settled = (body, next) := by
      show settleAll body signature.2 = _
      rw [hsignature]
      exact settleAll_of_all_isSettled hbody next
    rw [hsignature, hsettled]
    exact settle_of_isSettled rfl next
  | none =>
    cases self' with
    | some i =>
      refine ⟨1, Nat.le_succ 1, some next, some i, ?_⟩
      intro signature settled
      have hsignature : signature = (name :: parameters, next + 1) :=
        settleAll_of_all_isSettled (hself' rfl) _
      have hlist : (list (name :: parameters) (some i)).settle (next + 1)
          = (list signature.1 (some i), signature.2) := by
        rw [hsignature]
        exact settle_of_isSettled rfl _
      exact hnew _ _ hlist
    | none =>
      exact ⟨2, Nat.le_refl 2, some next, some (next + 1), hnew _ _ (settle_list _ _)⟩

/-- So does the longer spelling, where there are three lists around the parts. -/
theorem settle_lambdaDefinition (name : String) (parameters body : List Value) (next : Identity) :
    let settledParameters := settleAll parameters (next + 3)
    let settled := settleAll body settledParameters.2
    (lambdaDefinition (symbol name) parameters body).settle next
      = (settledLambdaDefinition name settledParameters.1 settled.1 next, settled.2) := by
  simp only [lambdaDefinition, settledLambdaDefinition, ofList, settle_list, settleAll,
    settle_symbol]

@[simp] theorem relabel_lambdaDefinition (φ : Relabelling) (name : Value)
    (parameters body : List Value) :
    (lambdaDefinition name parameters body).relabel φ
      = lambdaDefinition (name.relabel φ) (parameters.map (relabel φ)) (body.map (relabel φ)) := by
  simp [lambdaDefinition]

/-- A value of the kind that a name is not. -/
def Misnamed (v : Value) : Prop :=
  v.typeName ≠ "symbol" ∧ v.typeName ≠ "list"

theorem misnamed_of_isList {v : Value} (hlist : v.isList = false) :
    v.Misnamed ∨ ∃ name, v = symbol name := by
  cases v with
  | symbol name => exact .inr ⟨name, rfl⟩
  | list _ _ => cases hlist
  | _ => exact .inl ⟨by simp [typeName], by simp [typeName]⟩

theorem typeName_settle (v : Value) (next : Identity) :
    (v.settle next).1.typeName = v.typeName := by
  rcases settle_cases v next with ⟨-, hsame⟩ | ⟨-, htype⟩
  · exact congrArg typeName hsame
  · exact htype

/-- **Both forms settle into the same parts.** The relabelling goes on from the one before: it takes
what settled later higher by the numbers that the other form needs more. -/
theorem exists_settled_definitions {φ : Relabelling} {offset next : Identity}
    (hshifts : φ.ShiftsFrom offset next) {name : String} {parameters body : List Value}
    {self self' : Option Identity}
    (hself : self.isSome = true → self'.isSome = true ∧ body.all isSettled = true)
    (hself' : self'.isSome = true → (symbol name :: parameters).all isSettled = true)
    (hbelow : ∀ i ∈ (procedureDefinition (symbol name) parameters body self self').identities,
      i < next) :
    ∃ (ψ : Relabelling) (offset' last : Identity) (ps bs : List Value) (own own' : Option Identity),
      (∀ i < next, ψ.object i = φ.object i ∧ ψ.name i = φ.name i) ∧
      next ≤ last ∧ ψ.ShiftsFrom offset' last ∧
      bs.all isSettled = true ∧ (∀ i ∈ identitiesIn bs, i < last) ∧
      (procedureDefinition (symbol name) parameters body self self').settle next
        = (procedureDefinition (symbol name) ps bs own own', last) ∧
      ((lambdaDefinition (symbol name) parameters body).relabel φ).settle (next + offset)
        = (settledLambdaDefinition name (ps.map (relabel ψ)) (bs.map (relabel ψ)) (next + offset),
            last + offset') := by
  obtain ⟨fresh, hfresh, own, own', hsettle⟩ := settle_procedureDefinition hself hself' next
  -- the one side makes `fresh` lists before it reaches the parameters, the other side three
  let more := 3 - fresh
  let ψ := φ.raise hshifts (Nat.le_add_right next fresh) more
  have hψ : ψ.ShiftsFrom (offset + more) (next + fresh) := Relabelling.shiftsFrom_raise _ _ more
  have hsame : ∀ i < next, ψ.object i = φ.object i ∧ ψ.name i = φ.name i :=
    fun i hi => ⟨Relabelling.raise_object_of_lt _ _ more (Nat.lt_add_right fresh hi), rfl⟩
  -- what was there before is mapped as it was
  have hparts : ∀ vs, (∀ i ∈ identitiesIn vs, i < next) → vs.map (relabel φ) = relabelAll ψ vs := by
    intro vs hvs
    rw [← relabelAll_eq_map]
    exact (relabelAll_congr vs fun i hi => hsame i (hvs i hi)).symm
  have hparameters : ∀ i ∈ identitiesIn parameters, i < next := by
    intro i hi
    refine hbelow i ?_
    simp [procedureDefinition, identities, identitiesIn, hi]
  have hbody : ∀ i ∈ identitiesIn body, i < next := by
    intro i hi
    refine hbelow i ?_
    simp [procedureDefinition, identities, identitiesIn, hi]
  -- the parameters and the body settle on both sides, after three lists on the one side
  let settledParameters := settleAll parameters (next + fresh)
  let settledBody := settleAll body settledParameters.2
  have hle : next + fresh ≤ settledParameters.2 := le_settleAll parameters _
  have hlast : next + fresh ≤ settledBody.2 := Nat.le_trans hle (le_settleAll body _)
  have hthree : fresh + more = 3 := Nat.add_sub_cancel' (Nat.le_succ_of_le hfresh)
  have hstart : next + offset + 3 = next + fresh + (offset + more) := by
    rw [← hthree]
    exact Nat.add_add_add_comm next offset fresh more
  -- the parameters and the body take the same steps from there on, at the new distance
  have hright : settleAll (parameters.map (relabel φ)) (next + offset + 3)
      = (relabelAll ψ settledParameters.1, settledParameters.2 + (offset + more)) := by
    rw [hparts parameters hparameters, hstart]
    exact settleAll_relabel parameters _ (hψ _)
  have hright' : settleAll (body.map (relabel φ)) (settledParameters.2 + (offset + more))
      = (relabelAll ψ settledBody.1, settledBody.2 + (offset + more)) := by
    rw [hparts body hbody]
    exact settleAll_relabel body _ ((hψ _).mono hle (Nat.le_refl _))
  have hsignature : settleAll (symbol name :: parameters) (next + fresh)
      = (symbol name :: settledParameters.1, settledParameters.2) := by
    rw [settleAll, settle_symbol]
  refine ⟨ψ, offset + more, settledBody.2, settledParameters.1, settledBody.1, own, own', hsame,
    Nat.le_of_add_right_le hlast, hψ.mono hlast, all_isSettled_settleAll body _, ?_, ?_, ?_⟩
  · exact lt_of_mem_identities_settleAll fun i hi =>
      Nat.lt_of_lt_of_le (Nat.lt_add_right fresh (hbody i hi)) hle
  · rw [hsignature] at hsettle
    exact hsettle
  · rw [relabel_lambdaDefinition, relabel_symbol, settle_lambdaDefinition, hright, hright',
      relabelAll_eq_map, relabelAll_eq_map]

end Value

/-! ### Their evaluation -/

/-- The relabelling with one procedure losing its name. -/
def Relabelling.unname (φ : Relabelling) (self : Identity) : Relabelling where
  object := φ.object
  name i := if i = self then fun _ => none else φ.name i
  injective := φ.injective

namespace Relabelling

variable {φ : Relabelling} {self : Identity}

theorem name_unname_of_ne {i : Identity} (h : i ≠ self) : (φ.unname self).name i = φ.name i :=
  if_neg h

theorem agreeOn_unname {identities : List Identity} (h : ∀ i ∈ identities, i < self) :
    (φ.unname self).AgreeOn φ identities :=
  fun i hi => ⟨rfl, name_unname_of_ne (Nat.ne_of_lt (h i hi))⟩

theorem ShiftsFrom.unname {offset : Identity} (h : φ.ShiftsFrom offset self) :
    (φ.unname self).ShiftsFrom offset (self + 1) := by
  intro limit i hi hlt
  obtain ⟨hobject, hname⟩ := h limit i (Nat.le_of_succ_le hi) hlt
  refine ⟨hobject, fun name => ?_⟩
  rw [name_unname_of_ne (Nat.ne_of_gt hi), hname]

end Relabelling

namespace Machine

open Value Eval

/-- A procedure whose body has settled needs one number. -/
theorem close_of_settled {parameters body : List Value} {names : List String}
    (hnames : parameterNames [] parameters = .ok names) (hbody : body.all isSettled = true)
    (name : Option String) (env : Env) (s : State) :
    close name parameters body env s
      = .ok (compound name names body env (some s.nextIdentity))
          { s with nextIdentity := s.nextIdentity + 1 } := by
  -- the body has its identities, so the procedure itself takes the only new one
  have hsettle : (compound name names body env none).settle s.nextIdentity
      = (compound name names body env (some s.nextIdentity), s.nextIdentity + 1) := by
    rw [Value.settle, settleAll_of_all_isSettled hbody]
  rw [close, hnames]
  show EStateM.Result.ok ((compound name names body env none).settle s.nextIdentity).1
    { s with nextIdentity := ((compound name names body env none).settle s.nextIdentity).2 } = _
  rw [hsettle]

/-- Without parameters that are different names there is no procedure. -/
theorem close_of_error {parameters : List Value} {fault : SyntaxFault}
    (h : parameterNames [] parameters = .error fault) (name : Option String) (body : List Value)
    (env : Env) (s : State) :
    close name parameters body env s = .error (.malformed fault) s := by
  rw [close, h]
  rfl

/-- A name bound to a new procedure. -/
def bindProcedure (name : String) (recorded : Option String) (parameters body : List Value)
    (env : Env) : Eval Value := do
  let procedure ← close recorded parameters body env
  Eval.define env name procedure
  pure .ok

variable {φ : Relabelling} {offset : Identity} {places : Nat → Bool} {s s' : State}

/-- How runs end that were alike up to a form that the two programs spell differently: the
relabelling that goes on from there shifts all numbers that are still to be given out. -/
abbrev AgreeUnder (φ : Relabelling) (offset : Identity) (places : Nat → Bool)
    (refused : Failure → Prop) (r r' : EStateM.Result Failure State Value) : Prop :=
  Agree refused
    (fun t t' => t.Mirrors φ offset places t' ∧ φ.ShiftsFrom offset t.nextIdentity)
    (fun t t' => t.Alike φ t' ∧ t.SameTexts places t') (relabel φ) r r'

/-- **Procedures that are bound with their name and without it** are the same but for the name. -/
theorem agree_bindProcedure (hmirrors : s.Mirrors φ offset places s')
    (hshifts : φ.ShiftsFrom offset s.nextIdentity) (hs : s.Numbered) {body : List Value}
    (hbody : body.all isSettled = true) (hbelow : ∀ i ∈ identitiesIn body, i < s.nextIdentity)
    (name : String) (parameters : List Value) (env : Env) :
    AgreeUnder (φ.unname s.nextIdentity) offset places (fun _ => False)
      (bindProcedure name (some name) parameters body env s)
      (bindProcedure name none (parameters.map (relabel φ)) (body.map (relabel φ)) env s') := by
  let self := s.nextIdentity
  let ψ := φ.unname self
  -- the procedure is new, so nothing that was there before loses its name
  have hstore : s'.store = s.store.relabel ψ := by
    rw [hmirrors.store]
    exact (Store.relabel_congr fun v hv => Relabelling.agreeOn_unname (hs v hv)).symm
  have hbody' : body.map (relabel φ) = body.map (relabel ψ) := by
    rw [← relabelAll_eq_map, ← relabelAll_eq_map]
    exact (relabelAll_congr body (Relabelling.agreeOn_unname hbelow)).symm
  have halike : s.Alike ψ s' := ⟨hstore, hmirrors.registry, hmirrors.length⟩
  -- the same number is next on both sides, up to the distance
  have hself : s'.nextIdentity = φ.object self := by
    rw [hmirrors.nextIdentity, hshifts.object (Nat.le_refl self)]
  have hsettled : (body.map (relabel φ)).all isSettled = true := by
    rw [List.all_map, ← hbody]
    exact congrArg body.all (funext isSettled_relabel)
  have hnames := Twinning.parameterNames_relabel (φ := φ) [] parameters
  rw [bindProcedure, bindProcedure]
  generalize hleft : parameterNames [] parameters = r at hnames
  generalize hright : parameterNames [] (parameters.map (relabel φ)) = r' at hnames
  cases hnames with
  | error =>
    rw [bind_of_error (close_of_error hleft _ body env s),
      bind_of_error (close_of_error hright _ _ env s')]
    exact .error rfl ⟨halike, hmirrors.texts⟩
  | ok names =>
    rw [bind_of_ok (close_of_settled hleft hbody (some name) env s),
      bind_of_ok (close_of_settled hright hsettled none env s')]
    -- without a frame nothing can be defined, under whatever name the procedure is recorded
    cases env with
    | nil => exact .error rfl ⟨⟨hstore, hmirrors.registry, hmirrors.length⟩, hmirrors.texts⟩
    | cons id outer =>
      -- the two procedures differ in the recorded name, which the new relabelling takes away
      have hwritten : s'.store.setSlot id name
            (some (compound none names (body.map (relabel φ)) (id :: outer) (some s'.nextIdentity)))
          = (s.store.setSlot id name
              (some (compound (some name) names body (id :: outer) (some self)))).relabel ψ := by
        have hprocedure : (compound (some name) names body (id :: outer) (some self)).relabel ψ
            = compound none names (body.map (relabel φ)) (id :: outer) (some s'.nextIdentity) := by
          have hunnamed : ψ.rename (some self) (some name) = none := by
            show (if self = self then fun _ => none else φ.name self) (some name) = none
            rw [if_pos rfl]
          rw [relabel_compound, hunnamed, hbody', hself]
          rfl
        rw [← Store.setSlot_relabel, hstore, Option.map_some, hprocedure]
      refine .ok Value.ok ⟨⟨⟨hwritten, hmirrors.registry, hmirrors.length⟩, hmirrors.texts, ?_⟩, ?_⟩
      · show s'.nextIdentity + 1 = self + 1 + offset
        rw [hmirrors.nextIdentity, Nat.add_right_comm]
      · exact hshifts.unname

/-! ### Both forms evaluated -/

/-- The definition of a procedure, once it has settled. -/
theorem evaluateStep_procedureDefinition {s : State} (h : s.registry.get? "define" = some .define)
    (config : Config) (m : Machine) (name : String) (parameters body : List Value)
    (self self' : Option Identity) (env : Env) :
    evaluateStep config m (procedureDefinition (symbol name) parameters body self self') env s
      = match body with
        | [] => .error (.malformed (.missingBody name)) s.closed
        | _ :: _ => bindProcedure name (some name) parameters body env s.closed := by
  rw [procedureDefinition, evaluateStep_special h]
  cases body with
  | nil => rfl
  | cons b bs => rfl

/-- The other spelling, once it has settled. It takes one level more: that of the lambda. -/
theorem evaluate_lambdaDefinition {s : State} (hdefine : s.registry.get? "define" = some .define)
    (hlambda : s.registry.get? "lambda" = some .lambda) (config : Config) (levels : Nat)
    (name : String) (parameters body : List Value) (first : Identity) (env : Env) :
    (machine config (levels + 2)).evaluate
        (settledLambdaDefinition name parameters body first) env s
      = match body with
        | [] => .error (.malformed .lambdaShape) s.closed
        | _ :: _ => bindProcedure name none parameters body env s.closed := by
  have hclosed : s.closed.registry.get? "lambda" = some .lambda := hlambda
  let signature := list parameters (some (first + 2))
  let form := list (symbol "lambda" :: signature :: body) (some (first + 1))
  -- the inner form closes a registry that is closed
  have hinner : (machine config (levels + 1)).evaluate form env s.closed
      = lambda env (symbol "lambda" :: signature :: body) s.closed :=
    evaluateStep_special hclosed config (machine config levels) (signature :: body)
      (some (first + 1)) env
  rw [evaluate_machine_succ, settledLambdaDefinition, evaluateStep_special hdefine]
  show ((machine config (levels + 1)).evaluate form env
    >>= fun v => Eval.define env name v >>= fun _ => pure Value.ok) s.closed = _
  rw [bind_congr_of_eq hinner]
  cases body with
  | nil => rfl
  | cons b bs => rfl

theorem define_of_misnamed_signature {v : Value} (h : v.Misnamed) (m : Machine) (env : Env)
    (keyword : Value) (parameters body : List Value) (self : Option Identity) :
    m.define env (keyword :: list (v :: parameters) self :: body)
      = malformed (.procedureName v.write) := by
  cases v with
  | symbol _ => exact absurd rfl h.1
  | _ => rfl

theorem define_of_misnamed {v : Value} (h : v.Misnamed) (m : Machine) (env : Env)
    (keyword : Value) (operands : List Value) :
    m.define env (keyword :: v :: operands) = malformed .definitionShape := by
  cases v with
  | symbol _ => exact absurd rfl h.1
  | list _ _ => exact absurd rfl h.2
  | _ => rfl

/-- Settling gives out numbers. -/
theorem settle_eq (v : Value) (s : State) :
    Eval.settle v s = .ok (v.settle s.nextIdentity).1
      { s with nextIdentity := (v.settle s.nextIdentity).2 } := rfl

section

variable (hdefine : s.registry.get? "define" = some .define) {parameters body : List Value}
  {self self' : Option Identity} (config : Config) (m : Machine) (env : Env)

include hdefine in
theorem exists_run_procedureDefinition_of_misnamed {name : Value} (hname : name.Misnamed)
    (hself : self.isSome = true → self'.isSome = true ∧ body.all isSettled = true)
    (hself' : self'.isSome = true → (name :: parameters).all isSettled = true) :
    ∃ text next, (Eval.settle (procedureDefinition name parameters body self self')
        >>= fun e => evaluateStep config m e env) s
      = .error (.malformed (.procedureName text)) { s with nextIdentity := next }.closed := by
  obtain ⟨fresh, -, own, own', hsettle⟩ :=
    settle_procedureDefinition hself hself' s.nextIdentity
  dsimp only at hsettle
  -- making identities does not turn what is no symbol into one
  have hmisnamed : (name.settle (s.nextIdentity + fresh)).1.Misnamed := by
    rwa [Misnamed, typeName_settle]
  rw [bind_of_ok (settle_eq _ s), hsettle]
  dsimp only
  have hform : ∀ free, { s with nextIdentity := free }.registry.get? "define" = some .define :=
    fun _ => hdefine
  rw [evaluateStep_special (hform _), Value.settleAll]
  exact ⟨_, _, congrFun (define_of_misnamed_signature hmisnamed m env _ _ _ own') _⟩

include hdefine in
theorem exists_run_lambdaDefinition_of_misnamed {name : Value} (hname : name.Misnamed) :
    ∃ next, (Eval.settle (lambdaDefinition name parameters body)
        >>= fun e => evaluateStep config m e env) s
      = .error (.malformed .definitionShape) { s with nextIdentity := next }.closed := by
  have hmisnamed : (name.settle (s.nextIdentity + 1)).1.Misnamed := by
    rwa [Misnamed, typeName_settle]
  rw [bind_of_ok (settle_eq _ s), lambdaDefinition, ofList, settle_list, Value.settleAll,
    settle_symbol]
  dsimp only
  have hform : ∀ free, { s with nextIdentity := free }.registry.get? "define" = some .define :=
    fun _ => hdefine
  rw [evaluateStep_special (hform _), Value.settleAll]
  exact ⟨_, congrFun (define_of_misnamed hmisnamed m env _ _) _⟩

end

section

variable (hmirrors : s.Mirrors φ offset places s') (hshifts : φ.ShiftsFrom offset s.nextIdentity)
  (hs : s.Numbered) (hdefine : s.registry.get? "define" = some .define)
  (hlambda : s.registry.get? "lambda" = some .lambda) {parameters body : List Value}
  {self self' : Option Identity}
  (hself : self.isSome = true → self'.isSome = true ∧ body.all isSettled = true)
  (config : Config) (m : Machine) (levels : Nat) (env : Env)

include hmirrors hshifts hs hdefine hlambda hself in
/-- Both forms define a name. -/
theorem agree_definition_of_name (name : String)
    (hself' : self'.isSome = true → (symbol name :: parameters).all isSettled = true)
    (hbelow : ∀ i ∈ (procedureDefinition (symbol name) parameters body self self').identities,
      i < s.nextIdentity) :
    ∃ ψ offset', (∀ i < s.nextIdentity, ψ.object i = φ.object i ∧ ψ.name i = φ.name i) ∧
      AgreeUnder ψ offset' places (fun _ => False)
        ((Eval.settle (procedureDefinition (symbol name) parameters body self self')
          >>= fun e => evaluateStep config m e env) s)
        ((Eval.settle ((lambdaDefinition (symbol name) parameters body).relabel φ)
          >>= fun e => (machine config (levels + 2)).evaluate e env) s') := by
  obtain ⟨ψ, offset', last, ps, bs, own, own', hsame, hlast, hψ, hsettled, hbelow', hleft,
    hright⟩ :=
    exists_settled_definitions hshifts hself hself' hbelow
  -- the states in which the two settled forms are evaluated
  let t : State := { s with nextIdentity := last }
  let t' : State := { s' with nextIdentity := last + offset' }
  have hfirst : (Eval.settle (procedureDefinition (symbol name) parameters body self self')
        >>= fun e => evaluateStep config m e env) s
      = evaluateStep config m (procedureDefinition (symbol name) ps bs own own') env t := by
    rw [bind_of_ok (settle_eq _ s), hleft]
  have hsecond : (Eval.settle ((lambdaDefinition (symbol name) parameters body).relabel φ)
        >>= fun e => (machine config (levels + 2)).evaluate e env) s'
      = (machine config (levels + 2)).evaluate (settledLambdaDefinition name (ps.map (relabel ψ))
          (bs.map (relabel ψ)) (s.nextIdentity + offset)) env t' := by
    rw [bind_of_ok (settle_eq _ s'), hmirrors.nextIdentity, hright]
  have hstore : t'.store = t.store.relabel ψ := by
    show s'.store = s.store.relabel ψ
    rw [hmirrors.store]
    exact (Store.relabel_congr fun v hv i hi => hsame i (hs v hv i hi)).symm
  -- evaluating closes the registry on both sides first
  have hclosed : t.closed.Mirrors ψ offset' places t'.closed :=
    ⟨⟨hstore, congrArg Registry.close hmirrors.registry, hmirrors.length⟩, hmirrors.texts, rfl⟩
  have hnumbered : t.closed.Numbered :=
    fun v hv i hi => Nat.lt_of_lt_of_le (hs v hv i hi) hlast
  have hagree := agree_bindProcedure hclosed hψ hnumbered hsettled hbelow' name ps env
  have hlambda' : t'.registry.get? "lambda" = some .lambda := hmirrors.registry ▸ hlambda
  have hdefine' : t'.registry.get? "define" = some .define := hmirrors.registry ▸ hdefine
  have hdefines : t.registry.get? "define" = some .define := hdefine
  rw [hfirst, hsecond, evaluateStep_procedureDefinition hdefines,
    evaluate_lambdaDefinition hdefine' hlambda']
  -- without a body both are refused
  cases bs with
  | nil => exact ⟨ψ, offset', hsame, .error rfl ⟨hclosed.toAlike, hclosed.texts⟩⟩
  | cons b bs =>
    refine ⟨ψ.unname last, offset', fun i hi => ?_, hagree⟩
    -- the procedure is new, so those that were there keep their names
    have hne : i ≠ last := Nat.ne_of_lt (Nat.lt_of_lt_of_le hi hlast)
    obtain ⟨hobject, hname⟩ := hsame i hi
    exact ⟨hobject, (Relabelling.name_unname_of_ne hne).trans hname⟩

include hmirrors hshifts hs hdefine hlambda hself in
/-- **Both forms fail together, or bind the name to the same procedure** but for its name. -/
theorem agree_definition {name : Value} (hname : name.isList = false)
    (hself' : self'.isSome = true → (name :: parameters).all isSettled = true)
    (hbelow : ∀ i ∈ (procedureDefinition name parameters body self self').identities,
      i < s.nextIdentity) :
    ∃ ψ offset', (∀ i < s.nextIdentity, ψ.object i = φ.object i ∧ ψ.name i = φ.name i) ∧
      AgreeUnder ψ offset' places (fun _ => False)
        ((Eval.settle (procedureDefinition name parameters body self self')
          >>= fun e => evaluateStep config m e env) s)
        ((Eval.settle ((lambdaDefinition name parameters body).relabel φ)
          >>= fun e => (machine config (levels + 2)).evaluate e env) s') := by
  -- what is no symbol cannot be defined: the one form says so at the head, the other at the name
  rcases misnamed_of_isList hname with hmisnamed | ⟨name, rfl⟩
  · have hdefine' : s'.registry.get? "define" = some .define := hmirrors.registry ▸ hdefine
    have hmisnamed' : (name.relabel φ).Misnamed := by
      rwa [Misnamed, typeName_relabel]
    obtain ⟨text, next, hfirst⟩ := exists_run_procedureDefinition_of_misnamed hdefine config m env
      hmisnamed hself hself'
    obtain ⟨next', hsecond⟩ := exists_run_lambdaDefinition_of_misnamed hdefine' config
      (machine config (levels + 1)) env hmisnamed'
    refine ⟨φ, offset, fun _ _ => ⟨rfl, rfl⟩, ?_⟩
    rw [hfirst, relabel_lambdaDefinition]
    refine hsecond ▸ .error rfl ⟨⟨hmirrors.store, ?_, hmirrors.length⟩, hmirrors.texts⟩
    exact congrArg Registry.close hmirrors.registry
  · exact agree_definition_of_name hmirrors hshifts hs hdefine hlambda hself config m levels env
      name
      hself' hbelow

end

end Machine

end SmallLisp
