import SmallLisp.Proofs.Environment.Sharing
import SmallLisp.Proofs.Relabelling.Definition
import SmallLisp.Proofs.Run.Returns
import SmallLisp.Proofs.Value.Plain

/-!
# Expressions that yield values

A program logic for runs that leave what was there as it is. Every judgement is about all states
that extend a given one, and the value it speaks of is left in a further extension: so what was
shown of one expression holds after any other one was evaluated, and judgements are put together
without a word about states.

* `ReturnsFrom` — a computation over a machine;
* `Yields`, `YieldsEach` — the evaluation of an expression, of several operands;
* `Applies` — the application of a procedure.

An expression is given by its plain form, since it is not known which objects the lists of a program
are. What a name means in an environment is `State.Sees`, and `State.Binds` says which arguments a
frame binds. There is a rule for each kind of expression that the programs of the prelude use:
`yields_symbol`, `yields_quote`, `yields_conditional`, `yields_call`, and for the application of an
operation and of a compound procedure `applies_operation` and `applies_compound`.
-/

namespace SmallLisp

open Eval Machine

/-! ### Names -/

namespace State

variable {s t : State} {env : Env} {id : FrameId} {name : String} {v : Value}
  {parameters : List String} {arguments : List Value}

/-- The environment consists of frames that there are, and the name has this value in it. -/
structure Sees (s : State) (env : Env) (name : String) (v : Value) : Prop where
  find : s.store.find env name = some v
  exist : ∀ id ∈ env, id < s.store.frames.size

theorem Sees.extend (h : s.Sees env name v) (hst : s.Extends t) : t.Sees env name v where
  find := by
    rw [Store.find_congr (fun id hid => hst.frame id (h.exist id hid)), h.find]
  exist id hid := Nat.lt_of_lt_of_le (h.exist id hid) hst.size_le

theorem Extends.get? (h : s.Extends t) (tag : String) : t.registry.get? tag = s.registry.get? tag :=
  congrArg (Table.get? · tag) h.handlers

/-- The tag means nothing but this procedure. -/
structure Names (config : Config) (s : State) (env : Env) (tag : String) (procedure : Value) :
    Prop extends s.Sees env tag procedure where
  unregistered : s.registry.get? tag = none
  underived : Derived.ofTag? config.derived tag = none
  isProcedure : procedure.isProcedure = true

theorem Names.extend {config : Config} (h : s.Names config env name v) (hst : s.Extends t) :
    t.Names config env name v where
  toSees := h.toSees.extend hst
  unregistered := (hst.get? name).trans h.unregistered
  underived := h.underived
  isProcedure := h.isProcedure

/-- The frame of a call: it binds the parameters to the arguments. -/
structure Binds (s : State) (id : FrameId) (parameters : List String) (arguments : List Value) :
    Prop where
  exist : id < s.store.frames.size
  frame : s.store.frame id = Frame.bind parameters (arguments.map some)

theorem names_zip (hlength : parameters.length = arguments.length) :
    (parameters.zip (arguments.map some)).map Prod.fst = parameters :=
  List.map_fst_zip (Nat.le_of_eq (hlength.trans (List.length_map some).symm))

theorem get?_bind (hnodup : parameters.Nodup) (hlength : parameters.length = arguments.length)
    (name : String) : (Frame.bind parameters (arguments.map some)).get? name
      = Table.findEntry name (parameters.zip (arguments.map some)) := by
  have hsome : parameters.length = (arguments.map some).length := by
    rw [List.length_map, hlength]
  have hnames : ((parameters.zip (arguments.map some)).map Prod.fst).Nodup := by
    rwa [names_zip hlength]
  rw [Frame.bind, Frame.pair_eq_zip hsome, Table.ofPairs, Table.get?_setAll _ hnames]
  exact Option.or_none

/-- A parameter has its argument. -/
theorem Binds.sees (h : s.Binds id parameters arguments) (hnodup : parameters.Nodup)
    (hlength : parameters.length = arguments.length)
    (henv : ∀ other ∈ env, other < s.store.frames.size)
    (hname : Table.findEntry name (parameters.zip (arguments.map some)) = some (some v)) :
    s.Sees (id :: env) name v where
  find := by
    -- the frame of the call is the nearest one, and it binds the name to its argument
    have hget : (s.store.frame id).get? name = some (some v) := by
      rw [h.frame, get?_bind hnodup hlength, hname]
    have hcontains : (s.store.frame id).contains name = true :=
      (Table.contains_iff_mem_names _ _).2 ((Table.mem_names_iff _ _).2 ⟨_, hget⟩)
    rw [Store.find_cons, if_pos hcontains, Frame.value?, hget]
    rfl
  exist := List.forall_mem_cons.2 ⟨h.exist, henv⟩

/-- A name that is no parameter means what it does outside. -/
theorem Binds.sees_outer (h : s.Binds id parameters arguments) (hnodup : parameters.Nodup)
    (hlength : parameters.length = arguments.length) (hname : name ∉ parameters)
    (hv : s.Sees env name v) : s.Sees (id :: env) name v where
  find := by
    have hfree : (s.store.frame id).contains name = false := by
      rw [← Bool.not_eq_true, Table.contains_iff_mem_names, ← Table.get?_eq_none_iff, h.frame,
        get?_bind hnodup hlength]
      refine (Table.get?_eq_none_iff ⟨parameters.zip (arguments.map some)⟩ name).2 ?_
      rwa [Table.names, names_zip hlength]
    rw [Store.find_cons, hfree, if_neg Bool.false_ne_true, hv.find]
  exist := List.forall_mem_cons.2 ⟨h.exist, hv.exist⟩

/-- A name keeps its meaning when another one is bound. -/
theorem Sees.of_setSlot {bound : String} {value : Option Value} (h : s.Sees env name v)
    (hid : id < s.store.frames.size) (hne : name ≠ bound)
    (hstore : t.store = s.store.setSlot id bound value) : t.Sees env name v where
  find := by
    rw [hstore, Store.find_setSlot hid, if_neg fun h => hne h.1, h.find]
  exist := by
    rw [hstore, Store.size_setSlot]
    exact h.exist

/-- A name has the value that it was bound to in the innermost frame. -/
theorem sees_setSlot (hid : id < s.store.frames.size)
    (henv : ∀ other ∈ env, other < s.store.frames.size)
    (hstore : t.store = s.store.setSlot id name (some v)) : t.Sees (id :: env) name v where
  find := by
    have hcontains : ((s.store.setSlot id name (some v)).frame id).contains name = true := by
      rw [Store.frame_setSlot _ hid, if_pos rfl, Table.contains_set, beq_self_eq_true, Bool.true_or]
    have hresolve : (s.store.setSlot id name (some v)).resolve (id :: env) name = some id := by
      rw [Store.resolve_cons, if_pos hcontains]
    rw [hstore, Store.find_setSlot hid, if_pos ⟨rfl, hresolve⟩]
  exist := by
    rw [hstore, Store.size_setSlot]
    exact List.forall_mem_cons.2 ⟨hid, henv⟩

end State

namespace Machine

variable {config : Config} {α β : Type} {s t : State} {env : Env} {run : Machine → Eval α}
  {Q Q' : α → Prop} {forests forests' : Language CallTree}

/-! ### Computations -/

/-- From every state that extends this one the computation returns, in a further extension, a value
of which `Q` holds. -/
def ReturnsFrom (config : Config) (s : State) (run : Machine → Eval α) (Q : α → Prop)
    (forests : Language CallTree) : Prop :=
  ∀ t, s.Extends t → Returns config run t (fun a u => t.Extends u ∧ Q a) forests

theorem ReturnsFrom.extend (h : ReturnsFrom config s run Q forests) (hst : s.Extends t) :
    ReturnsFrom config t run Q forests :=
  fun u htu => h u (hst.trans htu)

theorem ReturnsFrom.imp (h : ReturnsFrom config s run Q forests) (hQ : ∀ a, Q a → Q' a)
    (hforests : forests ≤ forests') : ReturnsFrom config s run Q' forests' :=
  fun t hst => (h t hst).imp (fun a _ ⟨htu, ha⟩ => ⟨htu, hQ a ha⟩) hforests

/-- Nothing need be said of the forests. -/
theorem ReturnsFrom.forget (h : ReturnsFrom config s run Q forests) :
    ReturnsFrom config s run Q ⊤ :=
  h.imp (fun _ hQ => hQ) le_top

theorem returnsFrom_pure {a : α} (ha : Q a) : ReturnsFrom config s (fun _ => pure a) Q 1 :=
  fun t _ => returns_silent (isSilent_pure a) rfl ⟨.refl t, ha⟩

theorem ReturnsFrom.bind {f : Machine → α → Eval β} {Q' : β → Prop}
    (hx : ReturnsFrom config s run Q forests)
    (hf : ∀ a, Q a → ReturnsFrom config s (f · a) Q' forests') :
    ReturnsFrom config s (fun m => run m >>= f m) Q' (forests * forests') := by
  intro t hst
  refine (hx t hst).bind ?_
  rintro a u ⟨htu, ha⟩
  exact (hf a ha u (hst.trans htu)).imp (fun b w ⟨huw, hb⟩ => ⟨htu.trans huw, hb⟩) le_rfl

/-- A computation that first closes the registry. -/
theorem ReturnsFrom.closed {run' : Machine → Eval α} (h : ReturnsFrom config s run' Q forests)
    (hsame : ∀ m t, s.Extends t → run m t = run' m t.closed) :
    ReturnsFrom config s run Q forests := by
  intro t hst
  have hrest : Returns config run' t.closed (fun a u => t.Extends u ∧ Q a) forests := by
    refine (h t.closed (hst.trans (.closed t))).imp ?_ le_rfl
    rintro a u ⟨htu, ha⟩
    exact ⟨(State.Extends.closed t).trans htu, ha⟩
  -- closing the registry is silent and changes nothing that the run depends on
  have hclose : closeRegistry t = .ok () t.closed := rfl
  have hall : Returns config (fun m => closeRegistry >>= fun _ => run' m) t
      (fun a u => t.Extends u ∧ Q a) forests :=
    Returns.after isSilent_closeRegistry hclose hrest
  refine hall.congr fun m => ?_
  rw [hsame m t hst, bind_of_ok hclose]

/-! ### Expressions -/

/-- In the environment, an expression of this plain form yields a value of which `Q` holds. -/
def Yields (config : Config) (s : State) (env : Env) (p : Value) (Q : Value → Prop)
    (forests : Language CallTree) : Prop :=
  ∀ e : Value, e.plain = p → ReturnsFrom config s (·.evaluate e env) Q forests

/-- In the environment, operands of these plain forms yield one value for each condition. -/
def YieldsEach (config : Config) (s : State) (env : Env) (ps : List Value)
    (Qs : List (Value → Prop)) (forests : Language CallTree) : Prop :=
  ∀ es : List Value, es.map Value.plain = ps →
    ReturnsFrom config s (·.evaluateEach env es) (List.Forall₂ (fun Q v => Q v) Qs) forests

/-- Applied to these arguments, the procedure returns a value of which `Q` holds. -/
def Applies (config : Config) (s : State) (procedure : Value) (arguments : List Value)
    (Q : Value → Prop) (forests : Language CallTree) : Prop :=
  ReturnsFrom config s (·.apply procedure arguments) Q forests

theorem Yields.imp {p : Value} {Q Q' : Value → Prop} (h : Yields config s env p Q forests)
    (hQ : ∀ v, Q v → Q' v) (hforests : forests ≤ forests') : Yields config s env p Q' forests' :=
  fun e he => (h e he).imp hQ hforests

theorem Yields.forget {p : Value} {Q : Value → Prop} (h : Yields config s env p Q forests) :
    Yields config s env p Q ⊤ :=
  fun e he => (h e he).forget

/-- A level of evaluation. -/
theorem ReturnsFrom.evaluate {e : Value} {Q : Value → Prop}
    (h : ReturnsFrom config s (evaluateStep config · e env) Q forests) :
    ReturnsFrom config s (·.evaluate e env) Q forests :=
  fun t hst => (h t hst).evaluate

theorem yields_symbol {name : String} {v : Value} (h : s.Sees env name v) :
    Yields config s env (.symbol name) (· = v) 1 := by
  intro e he
  obtain rfl : e = .symbol name := Value.eq_of_plain_eq he rfl
  have hlookup : ReturnsFrom config s (fun _ => lookup env name) (· = v) 1 := by
    intro t hst
    have hrun : lookup env name t = .ok v t := by
      change ofExcept .eval (t.store.lookup env name) t = _
      rw [Store.lookup_of_find (h.extend hst).find]
      rfl
    exact returns_silent (isSilent_lookup env name) hrun ⟨.refl t, rfl⟩
  exact ReturnsFrom.evaluate (hlookup.closed fun _ _ _ => rfl)

/-- A quoted datum yields an object with its plain form. -/
theorem yields_quote {d : Value} (h : s.registry.get? "quote" = some .quote) :
    Yields config s env (.ofList [.symbol "quote", d]) (fun v => v.plain = d) 1 := by
  intro e he
  obtain ⟨es, self, rfl, hes⟩ := Value.exists_of_plain_eq_tagged he
  obtain ⟨datum, _, rfl, hdatum, hnil⟩ := List.map_eq_cons_iff.1 hes
  obtain rfl := List.map_eq_nil_iff.1 hnil
  refine ReturnsFrom.evaluate (ReturnsFrom.closed (returnsFrom_pure hdatum) fun m t hst => ?_)
  exact evaluateStep_special ((hst.get? "quote").trans h) config m _ self env

/-- Of the branches only the one that the test decides for is evaluated. -/
theorem yields_conditional {test consequent alternative : Value} {b : Bool} {Q : Value → Prop}
    (h : s.registry.get? "if" = some .conditional)
    (htest : Yields config s env test (·.isTruthy = b) forests)
    (hbranch : Yields config s env (bif b then consequent else alternative) Q forests') :
    Yields config s env (.ofList [.symbol "if", test, consequent, alternative]) Q
      (forests * forests') := by
  intro e he
  -- the form has the parts of its skeleton, with identities of its own
  obtain ⟨es, self, rfl, hes⟩ := Value.exists_of_plain_eq_tagged he
  obtain ⟨e₁, _, rfl, he₁, hes⟩ := List.map_eq_cons_iff.1 hes
  obtain ⟨e₂, _, rfl, he₂, hes⟩ := List.map_eq_cons_iff.1 hes
  obtain ⟨e₃, _, rfl, he₃, hnil⟩ := List.map_eq_cons_iff.1 hes
  obtain rfl := List.map_eq_nil_iff.1 hnil
  refine ReturnsFrom.evaluate (ReturnsFrom.closed ?_ fun m t hst =>
    evaluateStep_special ((hst.get? "if").trans h) config m _ self env)
  refine (htest e₁ he₁).bind fun v hv => ?_
  -- the value of the test is known, and so is the branch
  cases b with
  | true =>
    simp only [hv, if_true]
    exact hbranch e₂ he₂
  | false =>
    simp only [hv, Bool.false_eq_true, if_false]
    exact hbranch e₃ he₃

theorem yieldsEach_nil : YieldsEach config s env [] [] 1 := by
  intro es hes
  obtain rfl := List.map_eq_nil_iff.1 hes
  exact returnsFrom_pure .nil

theorem yieldsEach_cons {p : Value} {ps : List Value} {Q : Value → Prop}
    {Qs : List (Value → Prop)} (h : Yields config s env p Q forests)
    (hs : YieldsEach config s env ps Qs forests') :
    YieldsEach config s env (p :: ps) (Q :: Qs) (forests * forests') := by
  intro es hes
  obtain ⟨e, es, rfl, he, hes⟩ := List.map_eq_cons_iff.1 hes
  rw [← mul_one forests']
  refine (h e he).bind fun v hv => ?_
  exact (hs es hes).bind fun vs hvs => returnsFrom_pure (.cons hv hvs)

/-- A call: the operands from left to right, and then the procedure on their values. -/
theorem yields_call {tag : String} {procedure : Value} {ps : List Value}
    {Qs : List (Value → Prop)} {Q : Value → Prop} (h : s.Names config env tag procedure)
    (hoperands : YieldsEach config s env ps Qs forests)
    (happly : ∀ vs, List.Forall₂ (fun Q v => Q v) Qs vs →
      Applies config s procedure vs Q forests') :
    Yields config s env (.ofList (.symbol tag :: ps)) Q (forests * forests') := by
  intro e he
  obtain ⟨es, self, rfl, hes⟩ := Value.exists_of_plain_eq_tagged he
  have hcall : ReturnsFrom config s (fun m => m.evaluate (.symbol tag) env >>= fun procedure =>
      m.evaluateEach env es >>= m.apply procedure) Q (forests * forests') := by
    -- that the operator is evaluated starts nothing
    rw [← one_mul (forests * forests')]
    refine (yields_symbol h.toSees _ rfl).bind ?_
    rintro _ rfl
    exact (hoperands es hes).bind happly
  refine ReturnsFrom.evaluate (hcall.closed fun m t hst => ?_)
  have hnames := h.extend hst
  exact evaluateStep_call hnames.unregistered hnames.underived hnames.find hnames.isProcedure
    m es self

/-- A call with one operand. -/
theorem yields_call_one {tag : String} {procedure p : Value} {Q R : Value → Prop}
    (h : s.Names config env tag procedure) (hp : Yields config s env p Q forests)
    (happly : ∀ v, Q v → Applies config s procedure [v] R forests') :
    Yields config s env (.ofList [.symbol tag, p]) R (forests * forests') := by
  rw [← mul_one forests]
  refine yields_call h (yieldsEach_cons hp yieldsEach_nil) fun vs hvs => ?_
  obtain ⟨v, _, hv, hnil, rfl⟩ := List.forall₂_cons_left_iff.1 hvs
  obtain rfl := List.forall₂_nil_left_iff.1 hnil
  exact happly v hv

/-- A call with two operands. -/
theorem yields_call_two {tag : String} {procedure p q : Value} {P Q R : Value → Prop}
    {forests'' : Language CallTree} (h : s.Names config env tag procedure)
    (hp : Yields config s env p P forests) (hq : Yields config s env q Q forests')
    (happly : ∀ v w, P v → Q w → Applies config s procedure [v, w] R forests'') :
    Yields config s env (.ofList [.symbol tag, p, q]) R (forests * forests' * forests'') := by
  rw [← mul_one forests']
  refine yields_call h (yieldsEach_cons hp (yieldsEach_cons hq yieldsEach_nil)) fun vs hvs => ?_
  obtain ⟨v, _, hv, hrest, rfl⟩ := List.forall₂_cons_left_iff.1 hvs
  obtain ⟨w, _, hw, hnil, rfl⟩ := List.forall₂_cons_left_iff.1 hrest
  obtain rfl := List.forall₂_nil_left_iff.1 hnil
  exact happly v w hv hw

/-- The definition of a procedure is the only expression here that changes a frame: the innermost
one gains the name. What is bound to it closes over the environment. -/
theorem returns_definition {e : Value} {id : FrameId} {outer : Env} {name : String}
    {body : List Value} (parameters : List String)
    (h : s.registry.get? "define" = some .define)
    (he : e.plain = .ofList
      (.symbol "define" :: .ofList (.symbol name :: parameters.map .symbol) :: body))
    (hparameters : parameterNames [] (parameters.map .symbol) = .ok parameters)
    (hne : body ≠ []) (hbody : Value.allSkeletons body = true) :
    Returns config (·.evaluate e (id :: outer)) s
      (fun _ t => ∃ es self next, es.map Value.plain = body ∧ s.nextIdentity ≤ next ∧
        t = { s.closed with
          nextIdentity := next
          store := s.store.setSlot id name
            (some (.compound (some name) parameters es (id :: outer) self)) }) 1 := by
  obtain ⟨elements, self, rfl, helements⟩ := Value.exists_of_plain_eq_tagged he
  obtain ⟨signature, es, rfl, hsignature, hes⟩ := List.map_eq_cons_iff.1 helements
  obtain ⟨names, self', rfl, hnames⟩ := Value.exists_of_plain_eq_tagged hsignature
  obtain rfl : names = parameters.map .symbol := by
    refine Value.eq_of_map_plain_eq hnames fun w hw => ?_
    obtain ⟨n, -, rfl⟩ := List.mem_map.1 hw
    rfl
  let settled := (Value.settleAll es (s.nextIdentity + 1)).1
  have hsettled : settled.map Value.plain = body := by
    rw [← Value.plainAll_eq_map] at hes ⊢
    rw [Value.plainAll_settleAll (hes ▸ hbody), hes]
  let procedure := Value.compound (some name) parameters settled (id :: outer) (some s.nextIdentity)
  let next := (Value.settleAll es (s.nextIdentity + 1)).2
  have hnext : s.nextIdentity ≤ next := Nat.le_of_succ_le (Value.le_settleAll es _)
  let bind := bindProcedure name (some name) (parameters.map .symbol) es (id :: outer)
  have hclose : close (some name) (parameters.map .symbol) es (id :: outer) s.closed
      = .ok procedure { s.closed with nextIdentity := next } := by
    have hsettle : (Value.compound (some name) parameters es (id :: outer) none).settle
        s.nextIdentity = (procedure, next) := by rw [Value.settle]
    rw [close, hparameters]
    let new := Value.compound (some name) parameters es (id :: outer) none
    show EStateM.Result.ok (new.settle s.nextIdentity).1
      { s.closed with nextIdentity := (new.settle s.nextIdentity).2 } = _
    rw [hsettle]
  have hbind : bind s.closed = .ok .ok { s.closed with
      nextIdentity := next
      store := s.store.setSlot id name (some procedure) } := by
    show bindProcedure _ _ _ _ _ s.closed = _
    rw [bindProcedure, bind_of_ok hclose]
    rfl
  have hsilent : bind.IsSilent :=
    (isSilent_close _ _ _ _).bind fun _ => (isSilent_define _ _ _).bind fun _ => isSilent_pure _
  have hrun : (closeRegistry >>= fun _ => bind) s = .ok .ok _ :=
    (bind_of_ok (show closeRegistry s = .ok () s.closed from rfl) _).trans hbind
  refine Returns.evaluate ((returns_silent (isSilent_closeRegistry.bind fun _ => hsilent) hrun
    ⟨settled, _, next, hsettled, hnext, rfl⟩).congr fun m => ?_)
  have hstep := evaluateStep_procedureDefinition h config m name (parameters.map .symbol) es self
    self' (id :: outer)
  -- the rule asks for a body that is not empty before it binds anything
  cases es with
  | nil => exact absurd hes.symm hne
  | cons e es => exact hstep

/-! ### Applications -/

/-- An operation that has a result. -/
theorem applies_operation {op : Operation} {self : Option Identity} {arguments : List Value}
    {v : Value} {Q : Value → Prop} (hperform : op.perform arguments = .ok (.value v))
    (hQ : ∀ next, Q (v.settle next).1) :
    Applies config s (.primitive (.operation op) self) arguments Q
      (above (.primitive (.operation op) self) arguments 1) := by
  intro t _
  refine Returns.apply rfl (fun _ _ => rfl) ?_ fun inner hinner => ?_
  · rintro w u depth ⟨htu, hw⟩
    exact ⟨htu.with_depth depth, hw⟩
  have hextends : t.Extends inner := .of_untraced hinner
  have hsettle : settle v inner
      = .ok (v.settle inner.nextIdentity).1
          { inner with nextIdentity := (v.settle inner.nextIdentity).2 } := rfl
  have hsilent : Returns config (fun _ => settle v) inner (fun w u => t.Extends u ∧ Q w) 1 :=
    returns_silent (isSilent_settle v) hsettle
      ⟨hextends.with_nextIdentity (v.le_settle inner.nextIdentity), hQ _⟩
  refine hsilent.congr fun m => ?_
  simp only [perform, hperform]
  rfl

/-- A compound procedure evaluates its body in a frame that binds its parameters. What it does to
this frame no older frame can tell. -/
theorem applies_body {name : Option String} {parameters : List String} {body : List Value}
    {self : Option Identity} {arguments : List Value} {Q : Value → Prop}
    (hlength : parameters.length = arguments.length)
    (hbody : ∀ t u, s.Extends t → t.Extends u → u.Binds t.store.frames.size parameters arguments →
      Returns config (·.evaluateSequence (t.store.frames.size :: env) body) u
        (fun v w => t.Extends w ∧ Q v) forests) :
    Applies config s (.compound name parameters body env self) arguments Q
      (above (.compound name parameters body env self) arguments forests) := by
  intro t hst
  refine Returns.apply rfl (fun _ _ => rfl) ?_ fun inner hinner => ?_
  · rintro v u depth ⟨htu, hv⟩
    exact ⟨htu.with_depth depth, hv⟩
  have hextends : t.Extends inner := .of_untraced hinner
  -- the frame of the call is the next one, also under a line of the trace
  have hsize : inner.store.frames.size = t.store.frames.size := by
    have hstore : inner.untraced.store = t.untraced.store := congrArg State.store hinner
    exact congrArg (·.frames.size) hstore
  refine Returns.after (isSilent_extend env parameters arguments)
    (extend_of_length hlength env inner) ?_
  rw [hsize]
  refine hbody t _ hst (hextends.trans (.push inner env _)) ⟨?_, ?_⟩
  · rw [Store.size_push, hsize]
    exact Nat.lt_succ_self _
  · rw [← hsize]
    exact Store.frame_push_size inner.store env _

/-- A compound procedure whose body is one expression. -/
theorem applies_compound {name : Option String} {parameters : List String} {e : Value}
    {self : Option Identity} {arguments : List Value} {Q : Value → Prop}
    (hlength : parameters.length = arguments.length)
    (hbody : ∀ t id, s.Extends t → t.Binds id parameters arguments →
      Yields config t (id :: env) e.plain Q forests) :
    Applies config s (.compound name parameters [e] env self) arguments Q
      (above (.compound name parameters [e] env self) arguments forests) := by
  refine applies_body hlength fun t u hst htu hbinds => ?_
  have hyields := hbody u _ (hst.trans htu) hbinds e rfl u (.refl u)
  exact hyields.imp (fun v w ⟨huw, hv⟩ => ⟨htu.trans huw, hv⟩) le_rfl

/-- A procedure that returns from every extension of a state with some number of levels, and that
writes nothing and changes no frame. -/
theorem applies_of_returns {procedure : Value} {arguments : List Value} {Q : Value → Prop}
    (hprocedure : procedure.isProcedure = true)
    (h : ∀ t, s.Extends t → ∃ levels v u,
      (machine config levels).apply procedure arguments t = .ok v u ∧ Q v ∧
        u.outputs = t.outputs ∧ ∀ id < t.store.frames.size, u.store.frame id = t.store.frame id) :
    Applies config s procedure arguments Q (above procedure arguments ⊤) := by
  intro t hst
  obtain ⟨levels, v, u, hrun, hv, houtputs, hframe⟩ := h t hst
  exact returns_of_apply hprocedure hrun ⟨extends_of_apply hrun houtputs hframe, hv⟩

end Machine

end SmallLisp
