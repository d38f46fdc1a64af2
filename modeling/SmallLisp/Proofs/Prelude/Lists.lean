import SmallLisp.Proofs.Run.Yields

/-!
# The list procedures of the prelude

`append`, `reverse` and `map` are programs of the language, and what they return is shown by running
them: by induction on the list, since a call of one of them evaluates its body in a frame of its
own, and the body calls it with the rest of the list.

The texts are given as data (`appendBody`, `reverseBody`, `mapBody`), and a procedure counts as one
of them if its body has this plain form, wherever its frames are and whatever objects its body
consists of. `Serves` says what the environment has to offer to such a body. A parameter is not
among the names in question, so the frame of a call hides none of them (`Serves.enter`); the loop
that `reverse` defines in its own frame is not either (`Serves.of_setSlot`).

Of `map` more is said than what it returns. `MapsOver` describes the applications that it starts:
its procedure is applied to each element once, in the order of the list. This holds of every
procedure that returns, of whose own applications nothing is said.
-/

namespace SmallLisp

open Machine

/-! ### What the prelude reads as -/

namespace Prelude

/-- A form of the prelude. -/
def form (tag : String) (operands : List Value) : Value :=
  .ofList (.symbol tag :: operands)

/-- The body of `append`, whose parameters are `a` and `b`. -/
def appendBody : Value :=
  form "if" [form "null?" [.symbol "a"], .symbol "b",
    form "cons" [form "car" [.symbol "a"],
      form "append" [form "cdr" [.symbol "a"], .symbol "b"]]]

/-- The body of `map`, whose parameters are `f` and `items`. -/
def mapBody : Value :=
  form "if" [form "null?" [.symbol "items"], form "quote" [.ofList []],
    form "cons" [form "f" [form "car" [.symbol "items"]],
      form "map" [.symbol "f", form "cdr" [.symbol "items"]]]]

/-- The body of the loop inside `reverse`, whose parameters are `rest` and `acc`. -/
def loopBody : Value :=
  form "if" [form "null?" [.symbol "rest"], .symbol "acc",
    form "loop" [form "cdr" [.symbol "rest"],
      form "cons" [form "car" [.symbol "rest"], .symbol "acc"]]]

/-- The body of `reverse`, whose parameter is `items`. -/
def reverseBody : List Value :=
  [form "define" [form "loop" [.symbol "rest", .symbol "acc"], loopBody],
    form "loop" [.symbol "items", form "quote" [.ofList []]]]

/-- Whether a name means nothing but what it is bound to. -/
def isFree (name : String) : Bool :=
  (SpecialForm.registry.get? name).isNone && (Derived.ofTag? Derived.all name).isNone

/-- The operations that the list procedures use. -/
def operations : List Operation := [.car, .cdr, .cons, .isNull]

/-- What the list procedures rely on, in the environment in which their bodies are evaluated: the
core forms mean what they do, and the operations are there. -/
structure Serves (config : Config) (s : State) (env : Env) : Prop where
  derived : config.derived = Derived.all
  handlers : s.registry.handlers = SpecialForm.registry.handlers
  operation : ∀ op ∈ operations, ∃ self, s.Sees env op.name (.primitive (.operation op) self)

variable {config : Config} {s t : State} {env : Env} {id : FrameId} {name : String} {v : Value}
  {parameters : List String} {arguments : List Value}

theorem Serves.extend (h : Serves config s env) (hst : s.Extends t) : Serves config t env where
  derived := h.derived
  handlers := hst.handlers.trans h.handlers
  operation op hop := by
    obtain ⟨self, hsees⟩ := h.operation op hop
    exact ⟨self, hsees.extend hst⟩

theorem Serves.get? (h : Serves config s env) (tag : String) :
    s.registry.get? tag = SpecialForm.registry.get? tag :=
  congrArg (Table.get? · tag) h.handlers

theorem Serves.names (h : Serves config s env) (hname : isFree name = true)
    (hv : s.Sees env name v) (hprocedure : v.isProcedure = true) : s.Names config env name v where
  toSees := hv
  unregistered := by
    rw [h.get? name]
    exact Option.isNone_iff_eq_none.1 (Bool.and_eq_true_iff.1 hname).1
  underived := by
    rw [h.derived]
    exact Option.isNone_iff_eq_none.1 (Bool.and_eq_true_iff.1 hname).2
  isProcedure := hprocedure

theorem Serves.names_operation (h : Serves config s env) {op : Operation} (hop : op ∈ operations) :
    ∃ self, s.Names config env op.name (.primitive (.operation op) self) := by
  obtain ⟨self, hsees⟩ := h.operation op hop
  have hfree : ∀ op ∈ operations, isFree op.name = true := by decide
  exact ⟨self, h.names (hfree op hop) hsees rfl⟩

/-- Inside a procedure whose parameters are other names. -/
theorem Serves.enter (h : Serves config s env) (hbinds : s.Binds id parameters arguments)
    (hnodup : parameters.Nodup) (hlength : parameters.length = arguments.length)
    (hother : ∀ op ∈ operations, op.name ∉ parameters) : Serves config s (id :: env) where
  derived := h.derived
  handlers := h.handlers
  operation op hop := by
    obtain ⟨self, hsees⟩ := h.operation op hop
    exact ⟨self, hbinds.sees_outer hnodup hlength (hother op hop) hsees⟩

/-- After a definition in an inner frame. -/
theorem Serves.of_setSlot {bound : String} {value : Option Value} (h : Serves config s env)
    (hid : id < s.store.frames.size) (hother : ∀ op ∈ operations, op.name ≠ bound)
    (hhandlers : t.registry.handlers = s.registry.handlers)
    (hstore : t.store = s.store.setSlot id bound value) : Serves config t env where
  derived := h.derived
  handlers := hhandlers.trans h.handlers
  operation op hop := by
    obtain ⟨self, hsees⟩ := h.operation op hop
    exact ⟨self, hsees.of_setSlot hid (hother op hop) hstore⟩

/-- Inside a procedure of two parameters, each of them has its argument. -/
theorem Serves.enter_pair {m n : String} {v w : Value} (h : Serves config s env)
    (hbinds : s.Binds id [m, n] [v, w]) (hne : m ≠ n)
    (hother : ∀ op ∈ operations, op.name ∉ [m, n]) :
    Serves config s (id :: env) ∧ s.Sees (id :: env) m v ∧ s.Sees (id :: env) n w := by
  have hnodup : [m, n].Nodup := List.nodup_cons.2 ⟨by simpa using hne, List.nodup_singleton n⟩
  obtain ⟨_, hcar⟩ := h.operation .car (by decide)
  refine ⟨h.enter hbinds hnodup rfl hother, hbinds.sees hnodup rfl hcar.exist ?_,
    hbinds.sees hnodup rfl hcar.exist ?_⟩
  · simp [Table.findEntry]
  · simp [Table.findEntry, hne]

end Prelude

/-! ### Operations on lists -/

namespace Value

/-- The value is a list of elements of which `R` holds. -/
def IsListOf (R : List Value → Prop) (v : Value) : Prop :=
  ∃ elements self, v = list elements self ∧ R elements

/-- A new list of settled elements has these elements once it has settled. -/
theorem isListOf_settle {xs : List Value} (h : ∀ x ∈ xs, x.isSettled = true) (next : Identity) :
    ((ofList xs).settle next).1.IsListOf (· = xs) := by
  rw [ofList, settle_list, settleAll_of_all_isSettled (List.all_eq_true.2 h)]
  exact ⟨xs, some next, rfl, rfl⟩

end Value

namespace Prelude

/-- The application of an operation. -/
def applying (op : Operation) (arguments : List Value) : Language CallTree :=
  {calls | ∃ self, calls = [.node (.primitive (.operation op) self) arguments []]}

variable {config : Config} {s t : State} {env : Env} {id : FrameId} {name : String} {v : Value}
  {x : Value} {xs ys : List Value} {i j : Option Identity} {forests forests' : Language CallTree}

/-- The application of `cons` to something and a list. -/
def consing : Language CallTree :=
  {calls | ∃ v vs self, calls ∈ applying .cons [v, .list vs self]}

theorem above_le_applying (op : Operation) (self : Option Identity) (arguments : List Value) :
    above (.primitive (.operation op) self) arguments 1 ≤ applying op arguments := by
  rintro _ ⟨_, rfl, rfl⟩
  exact ⟨self, rfl⟩

/-- An operation applied to what a name means. -/
theorem Serves.yields_operation (h : Serves config s env) (op : Operation) (hop : op ∈ operations)
    (hv : s.Sees env name v) {w : Value} (hperform : op.perform [v] = .ok (.value w))
    {Q : Value → Prop} (hQ : ∀ next, Q (w.settle next).1) :
    Yields config s env (form op.name [.symbol name]) Q (applying op [v]) := by
  obtain ⟨self, hnames⟩ := h.names_operation hop
  have happly : Applies config s (.primitive (.operation op) self) [v] Q (applying op [v]) :=
    ReturnsFrom.imp (applies_operation hperform hQ) (fun _ h => h) (above_le_applying op self [v])
  rw [← one_mul (applying op [v])]
  refine yields_call_one hnames (yields_symbol hv) ?_
  rintro _ rfl
  exact happly

theorem yields_list (h : s.Sees env name (.list xs i)) :
    Yields config s env (.symbol name) (Value.IsListOf (· = xs)) 1 :=
  (yields_symbol h).imp (fun _ hv => ⟨xs, i, hv, rfl⟩) le_rfl

theorem Serves.yields_nil (h : Serves config s env) :
    Yields config s env (form "quote" [.ofList []]) (Value.IsListOf (· = [])) 1 := by
  refine (yields_quote (h.get? "quote")).imp (fun v hv => ?_) le_rfl
  obtain ⟨vs, i, rfl, hvs⟩ := Value.exists_of_plain_eq_ofList hv
  exact ⟨vs, i, rfl, List.map_eq_nil_iff.1 hvs⟩

theorem Serves.yields_null (h : Serves config s env) (hv : s.Sees env name (.list xs i)) :
    Yields config s env (form "null?" [.symbol name]) (·.isTruthy = xs.isEmpty)
      (applying .isNull [.list xs i]) := by
  have hperform : Operation.isNull.perform [.list xs i] = .ok (.value (.boolean xs.isEmpty)) := by
    cases xs <;> rfl
  refine h.yields_operation .isNull (by decide) hv hperform fun next => ?_
  rw [Value.settle_boolean]
  cases xs <;> rfl

theorem Serves.yields_car (h : Serves config s env) (hv : s.Sees env name (.list (x :: xs) i))
    (hx : x.isSettled = true) : Yields config s env (form "car" [.symbol name]) (· = x)
      (applying .car [.list (x :: xs) i]) := by
  refine h.yields_operation .car (by decide) hv rfl fun next => ?_
  rw [Value.settle_of_isSettled hx]

theorem Serves.yields_cdr (h : Serves config s env) (hv : s.Sees env name (.list (x :: xs) i))
    (hxs : ∀ x ∈ xs, x.isSettled = true) :
    Yields config s env (form "cdr" [.symbol name]) (Value.IsListOf (· = xs))
      (applying .cdr [.list (x :: xs) i]) :=
  h.yields_operation .cdr (by decide) hv rfl fun next => Value.isListOf_settle hxs next

/-- A list in front of which an element is put. -/
theorem Serves.yields_cons (h : Serves config s env) {p q : Value} {Q : Value → Prop}
    {R : List Value → Prop} (hp : Yields config s env p Q forests)
    (hq : Yields config s env q (Value.IsListOf R) forests')
    (hQ : ∀ v, Q v → v.isSettled = true) (hR : ∀ vs, R vs → ∀ v ∈ vs, v.isSettled = true) :
    Yields config s env (form "cons" [p, q])
      (Value.IsListOf fun ws => ∃ v vs, ws = v :: vs ∧ Q v ∧ R vs)
      (forests * forests' * consing) := by
  have hmem : Operation.cons ∈ operations := by decide
  obtain ⟨self, hnames⟩ := h.names_operation hmem
  refine yields_call_two hnames hp hq ?_
  rintro v _ hv ⟨ws, j, rfl, hws⟩
  -- the elements have their identities, so only the new list gets one
  have hsettled : ∀ w ∈ v :: ws, w.isSettled = true :=
    List.forall_mem_cons.2 ⟨hQ v hv, hR ws hws⟩
  have hresult : ∀ next, (((Value.ofList (v :: ws)).settle next).1).IsListOf
      fun ws => ∃ v vs, ws = v :: vs ∧ Q v ∧ R vs := by
    intro next
    obtain ⟨_, k, hlist, rfl⟩ := Value.isListOf_settle hsettled next
    exact ⟨v :: ws, k, hlist, v, ws, rfl, hv, hws⟩
  refine ReturnsFrom.imp (applies_operation rfl hresult) (fun _ h => h) ?_
  exact fun calls hcalls => ⟨v, ws, j, above_le_applying .cons self _ hcalls⟩

/-! ### Appending -/

/-- **`append` appends**, by induction on the first list: the recursive call has a shorter one. -/
theorem applies_append {self : Option Identity} {e : Value} (he : e.plain = appendBody)
    (h : Serves config s env)
    (hself : s.Sees env "append" (.compound (some "append") ["a", "b"] [e] env self))
    (hxs : ∀ x ∈ xs, x.isSettled = true) (hys : ∀ y ∈ ys, y.isSettled = true)
    (i j : Option Identity) :
    Applies config s (.compound (some "append") ["a", "b"] [e] env self) [.list xs i, .list ys j]
      (Value.IsListOf (· = xs ++ ys)) ⊤ := by
  -- by the first list, which is what the procedure takes apart
  induction xs generalizing i with
  | nil =>
    have hbody : ∀ t id, s.Extends t → t.Binds id ["a", "b"] [.list [] i, .list ys j] →
        Yields config t (id :: env) e.plain (Value.IsListOf (· = [] ++ ys)) ⊤ := by
      intro t id hst hbinds
      obtain ⟨hinner, ha, hb⟩ := (h.extend hst).enter_pair hbinds (by decide) (by decide)
      rw [he]
      exact (yields_conditional (hinner.get? "if") (hinner.yields_null ha) (yields_list hb)).forget
    exact ReturnsFrom.forget (applies_compound rfl hbody)
  | cons x xs ih =>
    obtain ⟨hx, htail⟩ := List.forall_mem_cons.1 hxs
    have hbody : ∀ t id, s.Extends t → t.Binds id ["a", "b"] [.list (x :: xs) i, .list ys j] →
        Yields config t (id :: env) e.plain (Value.IsListOf (· = x :: xs ++ ys)) ⊤ := by
      intro t id hst hbinds
      obtain ⟨hinner, ha, hb⟩ := (h.extend hst).enter_pair hbinds (by decide) (by decide)
      -- the name of the procedure is looked up again, and it means the same one
      have hagain := hinner.names (by decide)
        (hbinds.sees_outer (by decide) rfl (by decide) (hself.extend hst)) rfl
      have hrest : Yields config t (id :: env)
          (form "append" [form "cdr" [.symbol "a"], .symbol "b"])
          (Value.IsListOf (· = xs ++ ys)) (applying .cdr [.list (x :: xs) i] * 1 * ⊤) := by
        refine yields_call_two hagain (hinner.yields_cdr ha htail) (yields_symbol hb) ?_
        rintro _ _ ⟨_, k, rfl, rfl⟩ rfl
        exact (ih htail k).extend hst
      have hall : ∀ z ∈ xs ++ ys, z.isSettled = true :=
        List.forall_mem_append.2 ⟨htail, hys⟩
      have hcons := hinner.yields_cons (hinner.yields_car ha hx) hrest (fun _ hv => hv ▸ hx)
        fun _ hvs => hvs ▸ hall
      rw [he]
      refine (yields_conditional (hinner.get? "if") (hinner.yields_null ha) hcons).imp ?_ le_top
      rintro _ ⟨_, k, rfl, _, _, rfl, rfl, rfl⟩
      exact ⟨_, k, rfl, rfl⟩
    exact ReturnsFrom.forget (applies_compound rfl hbody)

/-! ### Reversing -/

/-- **The loop puts the elements in front of what it has**, the first one first. -/
theorem applies_loop {self : Option Identity} {e : Value} (he : e.plain = loopBody)
    (h : Serves config s env)
    (hself : s.Sees env "loop" (.compound (some "loop") ["rest", "acc"] [e] env self))
    (hxs : ∀ x ∈ xs, x.isSettled = true) {acc : List Value} (hacc : ∀ x ∈ acc, x.isSettled = true)
    (i j : Option Identity) :
    Applies config s (.compound (some "loop") ["rest", "acc"] [e] env self)
      [.list xs i, .list acc j] (Value.IsListOf (· = xs.reverse ++ acc)) ⊤ := by
  -- by what is left of the list; what has been turned round is any list
  induction xs generalizing acc i j with
  | nil =>
    have hbody : ∀ t id, s.Extends t → t.Binds id ["rest", "acc"] [.list [] i, .list acc j] →
        Yields config t (id :: env) e.plain (Value.IsListOf (· = [].reverse ++ acc)) ⊤ := by
      intro t id hst hbinds
      obtain ⟨hinner, hrest, hvalue⟩ := (h.extend hst).enter_pair hbinds (by decide) (by decide)
      rw [he]
      exact (yields_conditional (hinner.get? "if") (hinner.yields_null hrest)
        (yields_list hvalue)).forget
    exact ReturnsFrom.forget (applies_compound rfl hbody)
  | cons x xs ih =>
    obtain ⟨hx, htail⟩ := List.forall_mem_cons.1 hxs
    have hbody : ∀ t id, s.Extends t →
        t.Binds id ["rest", "acc"] [.list (x :: xs) i, .list acc j] →
        Yields config t (id :: env) e.plain (Value.IsListOf (· = (x :: xs).reverse ++ acc)) ⊤ := by
      intro t id hst hbinds
      obtain ⟨hinner, hrest, hvalue⟩ := (h.extend hst).enter_pair hbinds (by decide) (by decide)
      have hagain := hinner.names (by decide)
        (hbinds.sees_outer (by decide) rfl (by decide) (hself.extend hst)) rfl
      have hcons := hinner.yields_cons (hinner.yields_car hrest hx) (yields_list hvalue)
        (fun _ hv => hv ▸ hx) fun _ hvs => hvs ▸ hacc
      have hloop : Yields config t (id :: env) (form "loop" [form "cdr" [.symbol "rest"],
          form "cons" [form "car" [.symbol "rest"], .symbol "acc"]])
          (Value.IsListOf (· = (x :: xs).reverse ++ acc))
          (applying .cdr [.list (x :: xs) i]
            * (applying .car [.list (x :: xs) i] * 1 * consing) * ⊤) := by
        refine yields_call_two hagain (hinner.yields_cdr hrest htail) hcons ?_
        rintro _ _ ⟨_, k, rfl, rfl⟩ ⟨_, l, rfl, _, _, rfl, rfl, rfl⟩
        -- the element moved from the one list to the other
        rw [List.reverse_cons, List.append_assoc]
        exact (ih htail (List.forall_mem_cons.2 ⟨hx, hacc⟩) k l).extend hst
      rw [he]
      exact (yields_conditional (hinner.get? "if") (hinner.yields_null hrest) hloop).forget
    exact ReturnsFrom.forget (applies_compound rfl hbody)

/-- **`reverse` reverses**: in its own frame it defines the loop, and starts it with nothing. -/
theorem applies_reverse {self : Option Identity} {es : List Value}
    (hes : es.map Value.plain = reverseBody) (h : Serves config s env)
    (hxs : ∀ x ∈ xs, x.isSettled = true) (i : Option Identity) :
    Applies config s (.compound (some "reverse") ["items"] es env self) [.list xs i]
      (Value.IsListOf (· = xs.reverse)) ⊤ := by
  obtain ⟨definition, _, rfl, hdefinition, hes⟩ := List.map_eq_cons_iff.1 hes
  obtain ⟨start, _, rfl, hstart, hnil⟩ := List.map_eq_cons_iff.1 hes
  obtain rfl := List.map_eq_nil_iff.1 hnil
  have hbody : ∀ t u, s.Extends t → t.Extends u →
      u.Binds t.store.frames.size ["items"] [.list xs i] →
      Returns config (·.evaluateSequence (t.store.frames.size :: env) [definition, start]) u
        (fun v w => t.Extends w ∧ Value.IsListOf (· = xs.reverse) v) ⊤ := by
    intro t u hst htu hbinds
    let inner := t.store.frames.size :: env
    have hserves := (h.extend (hst.trans htu)).enter hbinds (by decide) rfl (by decide)
    obtain ⟨_, hcar⟩ := h.operation .car (by decide)
    have hframes := (hcar.extend (hst.trans htu)).exist
    have hitems : u.Sees inner "items" (.list xs i) := hbinds.sees (by decide) rfl hframes rfl
    -- the definition changes the frame of this call, which is younger than `t`
    have hdefine : Returns config (·.evaluate definition inner) u (fun _ w => t.Extends w ∧
        ∃ body self, body.plain = loopBody ∧ Serves config w inner ∧
          w.Sees inner "items" (.list xs i) ∧
          w.Sees inner "loop" (.compound (some "loop") ["rest", "acc"] [body] inner self)) 1 := by
      refine (returns_definition ["rest", "acc"] (hserves.get? "define") hdefinition rfl
        (List.cons_ne_nil _ _) rfl).imp ?_ le_rfl
      rintro _ w ⟨bodies, self, next, hbodies, hnext, rfl⟩
      obtain ⟨body, _, rfl, hbody, hnil⟩ := List.map_eq_cons_iff.1 hbodies
      obtain rfl := List.map_eq_nil_iff.1 hnil
      have htw := ((htu.trans (.closed u)).with_nextIdentity hnext).setSlot (Nat.le_refl _) "loop"
        (some (.compound (some "loop") ["rest", "acc"] [body] inner self))
      refine ⟨htw, body, self, hbody, ?_, ?_, ?_⟩
      · exact hserves.of_setSlot hbinds.exist (by decide) rfl rfl
      · exact hitems.of_setSlot hbinds.exist (by decide) rfl
      · exact State.sees_setSlot hbinds.exist hframes rfl
    -- from here on the loop is there, and the judgements speak of the state after its definition
    rw [← one_mul (⊤ : Language CallTree)]
    refine hdefine.bind ?_
    rintro _ w ⟨htw, body, self, hbody, hserves, hitems, hloop⟩
    have hstarts : Yields config w inner (form "loop" [.symbol "items", form "quote" [.ofList []]])
        (Value.IsListOf (· = xs.reverse)) (1 * 1 * ⊤) := by
      refine yields_call_two (hserves.names (by decide) hloop rfl) (yields_symbol hitems)
        hserves.yields_nil ?_
      rintro _ _ rfl ⟨_, j, rfl, rfl⟩
      have happly := applies_loop hbody hserves hloop hxs (List.forall_mem_nil _) i j
      rwa [List.append_nil] at happly
    exact (hstarts start hstart w (.refl w)).imp (fun v u ⟨hwu, hv⟩ => ⟨htw.trans hwu, hv⟩) le_top
  exact ReturnsFrom.forget (applies_body rfl hbody)

/-! ### Mapping -/

/-- What an application of `map` to `f` and a list starts: besides operations on lists, the
application of `f` to the first element, and after it the mapping over the others. -/
inductive MapsOver (map f : Value) : List Value → CallTree → Prop
  | nil {i self : Option Identity} : MapsOver map f [] (.node map [f, .list [] i]
      [.node (.primitive (.operation .isNull) self) [.list [] i] []])
  | cons {x v : Value} {xs vs : List Value} {i j null car cdr cons : Option Identity}
      {calls : List CallTree} {rest : CallTree} : MapsOver map f xs rest →
      MapsOver map f (x :: xs) (.node map [f, .list (x :: xs) i]
        [.node (.primitive (.operation .isNull) null) [.list (x :: xs) i] [],
          .node (.primitive (.operation .car) car) [.list (x :: xs) i] [],
          .node f [x] calls,
          .node (.primitive (.operation .cdr) cdr) [.list (x :: xs) i] [],
          rest,
          .node (.primitive (.operation .cons) cons) [v, .list vs j] []])

/-- The forests of one tree that maps over the list. -/
def mapping (map f : Value) (xs : List Value) : Language CallTree :=
  {calls | ∃ tree, MapsOver map f xs tree ∧ calls = [tree]}

variable {map f : Value}

theorem above_le_mapping_nil :
    above map [f, .list [] i] (applying .isNull [.list [] i] * 1) ≤ mapping map f [] := by
  rintro _ ⟨inner, hinner, rfl⟩
  rw [mul_one] at hinner
  obtain ⟨self, rfl⟩ := hinner
  exact ⟨_, .nil, rfl⟩

theorem above_le_mapping_cons :
    above map [f, .list (x :: xs) i] (applying .isNull [.list (x :: xs) i] *
        (applying .car [.list (x :: xs) i] * above f [x] ⊤ *
          (1 * applying .cdr [.list (x :: xs) i] * mapping map f xs) * consing))
      ≤ mapping map f (x :: xs) := by
  rintro _ ⟨_, hinner, rfl⟩
  rw [one_mul] at hinner
  obtain ⟨_, ⟨null, rfl⟩, _, ⟨_, ⟨_, ⟨_, ⟨car, rfl⟩, _, ⟨calls, -, rfl⟩, rfl⟩,
    _, ⟨_, ⟨cdr, rfl⟩, _, ⟨rest, hrest, rfl⟩, rfl⟩, rfl⟩,
    _, ⟨v, vs, j, cons, rfl⟩, rfl⟩, rfl⟩ := hinner
  exact ⟨_, .cons hrest, rfl⟩

/-- **`map` maps**, by induction on the list. Of each element the procedure gives a value of which
`P` holds. -/
theorem applies_map {self : Option Identity} {e : Value} (he : e.plain = mapBody)
    (h : Serves config s env)
    (hmap : map = .compound (some "map") ["f", "items"] [e] env self)
    (hself : s.Sees env "map" map) (hprocedure : f.isProcedure = true)
    {P : Value → Value → Prop} (hsettled : ∀ x v, P x v → v.isSettled = true)
    (hxs : ∀ x ∈ xs, x.isSettled = true)
    (hf : ∀ x ∈ xs, Applies config s f [x] (P x) (above f [x] ⊤)) (i : Option Identity) :
    Applies config s map [f, .list xs i] (Value.IsListOf (List.Forall₂ P xs))
      (mapping map f xs) := by
  induction xs generalizing i with
  | nil =>
    have hbody : ∀ t id, s.Extends t → t.Binds id ["f", "items"] [f, .list [] i] →
        Yields config t (id :: env) e.plain (Value.IsListOf (List.Forall₂ P []))
          (applying .isNull [.list [] i] * 1) := by
      intro t id hst hbinds
      obtain ⟨hinner, -, hitems⟩ := (h.extend hst).enter_pair hbinds (by decide) (by decide)
      rw [he]
      refine (yields_conditional (hinner.get? "if") (hinner.yields_null hitems)
        hinner.yields_nil).imp ?_ le_rfl
      rintro _ ⟨_, k, rfl, rfl⟩
      exact ⟨[], k, rfl, .nil⟩
    subst hmap
    exact ReturnsFrom.imp (applies_compound rfl hbody) (fun _ hv => hv) above_le_mapping_nil
  | cons x xs ih =>
    obtain ⟨hx, htail⟩ := List.forall_mem_cons.1 hxs
    obtain ⟨hfirst, hothers⟩ := List.forall_mem_cons.1 hf
    have hbody : ∀ t id, s.Extends t → t.Binds id ["f", "items"] [f, .list (x :: xs) i] →
        Yields config t (id :: env) e.plain (Value.IsListOf (List.Forall₂ P (x :: xs)))
          (applying .isNull [.list (x :: xs) i] *
            (applying .car [.list (x :: xs) i] * above f [x] ⊤ *
              (1 * applying .cdr [.list (x :: xs) i] * mapping map f xs) * consing)) := by
      intro t id hst hbinds
      obtain ⟨hinner, hprocedureName, hitems⟩ :=
        (h.extend hst).enter_pair hbinds (by decide) (by decide)
      have hvalue : Yields config t (id :: env) (form "f" [form "car" [.symbol "items"]]) (P x)
          (applying .car [.list (x :: xs) i] * above f [x] ⊤) := by
        refine yields_call_one (hinner.names (by decide) hprocedureName hprocedure)
          (hinner.yields_car hitems hx) ?_
        rintro _ rfl
        exact hfirst.extend hst
      have hagain := hinner.names (by decide)
        (hbinds.sees_outer (by decide) rfl (by decide) (hself.extend hst)) (by rw [hmap]; rfl)
      have hrest : Yields config t (id :: env)
          (form "map" [.symbol "f", form "cdr" [.symbol "items"]])
          (Value.IsListOf (List.Forall₂ P xs))
          (1 * applying .cdr [.list (x :: xs) i] * mapping map f xs) := by
        refine yields_call_two hagain (yields_symbol hprocedureName)
          (hinner.yields_cdr hitems htail) ?_
        rintro _ _ rfl ⟨_, k, rfl, rfl⟩
        exact (ih htail hothers k).extend hst
      have hcons := hinner.yields_cons hvalue hrest (hsettled x) fun vs hvs =>
        forall_mem_of_forall₂ hvs htail fun x v _ => hsettled x v
      rw [he]
      refine (yields_conditional (hinner.get? "if") (hinner.yields_null hitems) hcons).imp ?_ le_rfl
      rintro _ ⟨_, k, rfl, v, vs, rfl, hv, hvs⟩
      exact ⟨v :: vs, k, rfl, .cons hv hvs⟩
    subst hmap
    exact ReturnsFrom.imp (applies_compound rfl hbody) (fun _ hv => hv) above_le_mapping_cons

end Prelude

end SmallLisp
