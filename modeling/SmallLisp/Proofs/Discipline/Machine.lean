import SmallLisp.Eval.Machine
import SmallLisp.Proofs.Discipline.Blame
import SmallLisp.Proofs.Discipline.Operation
import SmallLisp.Proofs.Discipline.Rewriting
import SmallLisp.Proofs.Run.Ensures

/-!
# Evaluation keeps to every discipline

A `Footprint` is a relation between the state before and the state after a part of a run, told by
the innermost frame of the environment in which that part evaluates. Its laws list everything that a
single step can do to the state: give out identities, write to the record, close the registry, go
one call deeper and come back, bind a name in the innermost frame, overwrite a name in a frame that
binds it, and call a procedure in a new frame. A verdict is what is said of a failure and of the
state in which it is raised.

There is one step of the induction over runs (`Keeps.evaluateStep`, `Keeps.applyStep`). Of the
machine with one level less it assumes that every evaluation and every application, whether it ends
in a value or in a failure,

* leaves the store within the discipline;
* is related to its starting state by the footprint, and registers no form;
* has a value within the discipline, if it has a value;
* has a failure for which the verdict holds, if it has one.

Then all this holds one level up, where the failure may also be one that the call itself raises
(`Discipline.Raises`). There is one lemma for each kind of form. None of them looks at what the
footprint, the discipline or the verdict says.
-/

namespace SmallLisp

/-- What runs may do to the state. -/
structure Footprint (D : Discipline) where
  /-- How the state before is related to the state after, if the run evaluates in an environment
  with that innermost frame. An application has none. -/
  Rel : Option FrameId → State → State → Prop
  /-- A run may do nothing. -/
  refl : ∀ inner s, Rel inner s s
  /-- Runs follow one another. -/
  trans : ∀ {inner s t u}, Rel inner s t → Rel inner t u → Rel inner s u
  /-- What an application does can be done in any environment. -/
  outer : ∀ {inner s t}, Rel none s t → Rel inner s t
  settle : ∀ inner s next, Rel inner s { s with nextIdentity := next }
  close : ∀ inner s, Rel inner s { s with registry := s.registry.close }
  output : ∀ inner s text, Rel inner s { s with events := s.events.push (.output text) }
  trace : ∀ inner s name arguments, D.Name name → (∀ a ∈ arguments, D.Data a) →
    Rel inner s
      { s with events := s.events.push (.trace (Machine.traceLine s.depth name arguments)) }
  deeper : ∀ {inner s t}, Rel inner { s with depth := s.depth + 1 } t →
    Rel inner s { t with depth := t.depth - 1 }
  define : ∀ {id s name v}, D.Known id → D.Name name → D.Data v →
    Rel (some id) s { s with store := s.store.setSlot id name (some v) }
  assign : ∀ {inner id s name v}, D.Known id → (s.store.frame id).contains name = true → D.Data v →
    Rel inner s { s with store := s.store.setSlot id name (some v) }
  /-- A procedure runs in a frame of its own, which no one else has and which binds each name to a
  value. -/
  call : ∀ {s env f t}, D.Holds s.store → (∀ name, f.get? name ≠ some none) →
    Rel (some s.store.frames.size) { s with store := (s.store.push env f).2 } t → Rel none s t

/-- What is said of a failure and of the state in which it is raised. -/
abbrev Verdict := Failure → State → Prop

namespace Footprint

variable {D : Discipline} {F : Footprint D} {V G : Verdict} {inner : Option FrameId} {env : Env}
  {α β : Type}

/-- How the state before a part of a run is related to the state after it. -/
structure Leads (F : Footprint D) (inner : Option FrameId) (s t : State) : Prop where
  /-- The store keeps to the discipline. -/
  holds : D.Holds t.store
  rel : F.Rel inner s t
  /-- No form is registered. -/
  handlers : t.registry.handlers = s.registry.handlers

theorem Leads.refl {s : State} (hs : D.Holds s.store) : F.Leads inner s s :=
  ⟨hs, F.refl inner s, rfl⟩

theorem Leads.trans {s t u : State} (hst : F.Leads inner s t) (htu : F.Leads inner t u) :
    F.Leads inner s u :=
  ⟨htu.holds, F.trans hst.rel htu.rel, htu.handlers.trans hst.handlers⟩

/-- Run in the state `s`, the computation keeps to the discipline and the footprint; its value is
one of which `P` holds, and its failure one of which the verdict holds. -/
def RunsFrom (F : Footprint D) (V : Verdict) (inner : Option FrameId) (s : State) (x : Eval α)
    (P : α → Prop) : Prop :=
  x.Ensures s (fun a t => F.Leads inner s t ∧ P a) fun failure t => F.Leads inner s t ∧ V failure t

/-- The computation does so from every state of the discipline. -/
def Runs (F : Footprint D) (V : Verdict) (inner : Option FrameId) (x : Eval α) (P : α → Prop) :
    Prop :=
  ∀ s, D.Holds s.store → F.RunsFrom V inner s x P

/-- However the computation ends, its final state is related to its starting state. -/
theorem RunsFrom.leads {s : State} {x : Eval α} {P : α → Prop} (h : F.RunsFrom V inner s x P) :
    F.Leads inner s (x.finalState s) := by
  have hends : x.Ensures s (fun _ t => F.Leads inner s t) fun _ t => F.Leads inner s t :=
    Eval.Ensures.imp h (fun _ _ ⟨hst, _⟩ => hst) fun _ _ ⟨hst, _⟩ => hst
  exact hends.finalState

theorem RunsFrom.rel {s : State} {x : Eval α} {P : α → Prop} (h : F.RunsFrom V inner s x P) :
    F.Rel inner s (x.finalState s) :=
  h.leads.rel

/-! ### Constructions of the monad -/

variable {P : α → Prop} {Q : β → Prop}

theorem runs_pure {a : α} (h : P a) : F.Runs V inner (pure a) P :=
  fun _ hs => Eval.ensures_pure ⟨.refl hs, h⟩

theorem runs_throw {failure : Failure} (h : ∀ s, V failure s) :
    F.Runs V inner (throw failure : Eval α) P :=
  fun s hs => Eval.ensures_throw ⟨.refl hs, h s⟩

theorem runs_fail {fault : EvalFault} (h : ∀ s, V (.eval fault) s) :
    F.Runs V inner (Eval.fail fault : Eval α) P :=
  runs_throw h

theorem runs_malformed {fault : SyntaxFault} (h : ∀ s, V (.malformed fault) s) :
    F.Runs V inner (Eval.malformed fault : Eval α) P :=
  runs_throw h

theorem runs_ofExcept {ε : Type} {toFailure : ε → Failure} {x : Except ε α}
    (hvalue : ∀ a, x = .ok a → P a)
    (hfault : ∀ fault, x = .error fault → ∀ s, V (toFailure fault) s) :
    F.Runs V inner (Eval.ofExcept toFailure x) P :=
  fun s hs => Eval.ensures_ofExcept (fun a ha => ⟨.refl hs, hvalue a ha⟩)
    fun fault hx => ⟨.refl hs, hfault fault hx s⟩

theorem RunsFrom.bind {s : State} {x : Eval α} {f : α → Eval β} (hx : F.RunsFrom V inner s x P)
    (hf : ∀ a, P a → F.Runs V inner (f a) Q) : F.RunsFrom V inner s (x >>= f) Q := by
  refine Eval.ensures_bind (hx.imp ?_ fun _ _ h => h)
  rintro a t ⟨hst, ha⟩
  exact (hf a ha t hst.holds).imp (fun b u ⟨htu, hb⟩ => ⟨hst.trans htu, hb⟩)
    fun failure u ⟨htu, hfailure⟩ => ⟨hst.trans htu, hfailure⟩

theorem Runs.bind {x : Eval α} {f : α → Eval β} (hx : F.Runs V inner x P)
    (hf : ∀ a, P a → F.Runs V inner (f a) Q) : F.Runs V inner (x >>= f) Q :=
  fun s hs => (hx s hs).bind hf

/-- Reading the state: what follows has to keep to the footprint from the state that was read. -/
theorem runs_get_bind {f : State → Eval α}
    (h : ∀ s, D.Holds s.store → F.RunsFrom V inner s (f s) P) : F.Runs V inner (get >>= f) P :=
  fun s hs => Eval.ensures_get_bind (h s hs)

theorem RunsFrom.imp {s : State} {W : Verdict} {P' : α → Prop} {x : Eval α}
    (hx : F.RunsFrom V inner s x P) (hP : ∀ a, P a → P' a)
    (hV : ∀ failure t, F.Leads inner s t → V failure t → W failure t) : F.RunsFrom W inner s x P' :=
  Eval.Ensures.imp hx (fun a _ ⟨hst, ha⟩ => ⟨hst, hP a ha⟩)
    fun failure t ⟨hst, hfailure⟩ => ⟨hst, hV failure t hst hfailure⟩

/-- A weaker verdict. -/
theorem Runs.blame {W : Verdict} {x : Eval α} (hx : F.Runs V inner x P)
    (h : ∀ failure t, V failure t → W failure t) : F.Runs W inner x P :=
  fun s hs => (hx s hs).imp (fun _ ha => ha) fun failure t _ => h failure t

theorem Runs.outer {x : Eval α} (hx : F.Runs V none x P) : F.Runs V inner x P :=
  fun s hs => Eval.Ensures.imp (hx s hs)
    (fun _ _ ⟨hst, ha⟩ => ⟨⟨hst.holds, F.outer hst.rel, hst.handlers⟩, ha⟩)
    fun _ _ ⟨hst, hfailure⟩ => ⟨⟨hst.holds, F.outer hst.rel, hst.handlers⟩, hfailure⟩

/-! ### Steps -/

theorem runs_settle {role : Discipline.Role} {v : Value} (hv : D.Within role v) :
    F.Runs V inner (Eval.settle v) (D.Within role) :=
  fun s hs => Eval.ensures_modifyGet ⟨⟨hs, F.settle inner s _, rfl⟩, hv.settle s.nextIdentity⟩

theorem runs_closeRegistry : F.Runs V inner Eval.closeRegistry fun _ => True :=
  fun s hs => Eval.ensures_modify ⟨⟨hs, F.close inner s, rfl⟩, trivial⟩

theorem runs_output (text : String) : F.Runs V inner (Eval.emit (.output text)) fun _ => True :=
  fun s hs => Eval.ensures_modify ⟨⟨hs, F.output inner s text, rfl⟩, trivial⟩

/-- A verdict on what happens one call deeper has to hold after the return too. -/
theorem runs_deeper {call : Eval α}
    (hV : ∀ failure t depth, V failure t → V failure { t with depth })
    (h : F.Runs V inner call P) : F.Runs V inner (Eval.deeper call) P :=
  fun s hs => Eval.ensures_deeper (Eval.Ensures.imp (h { s with depth := s.depth + 1 } hs)
    (fun _ _ ⟨hst, ha⟩ => ⟨⟨hst.holds, F.deeper hst.rel, hst.handlers⟩, ha⟩)
    fun failure t ⟨hst, hfailure⟩ =>
      ⟨⟨hst.holds, F.deeper hst.rel, hst.handlers⟩, hV failure t (t.depth - 1) hfailure⟩)

theorem runs_lookup (henv : D.Scope env) {name : String}
    (hV : ∀ s, s.store.find env name = none → V (.eval (.unboundVariable name)) s) :
    F.Runs V inner (Eval.lookup env name) D.Data := by
  refine runs_get_bind fun s hs => ?_
  refine Eval.ensures_ofExcept (fun v hv => ⟨.refl hs, ?_⟩) fun fault hfault => ⟨.refl hs, ?_⟩
  · rw [Store.lookup] at hv
    split at hv
    · next w hfind =>
      -- a value that is found is one of the frame that binds the name
      cases hv
      exact hs.find henv hfind
    · cases hv
  · rw [Store.lookup] at hfault
    split at hfault
    · cases hfault
    · next hfind =>
      cases hfault
      exact hV s hfind

theorem runs_assign (henv : D.Scope env) {name : String} (hname : D.Name name) {v : Value}
    (hv : D.Data v)
    (hV : ∀ s, s.store.resolve env name = none → V (.eval (.unboundVariable name)) s) :
    F.Runs V inner (Eval.assign env name v) fun _ => True := by
  refine runs_get_bind fun s hs => ?_
  refine Eval.ensures_bind (Eval.ensures_ofExcept (fun id hid => ?_) fun fault hfault => ?_)
  · -- the frame that is written to is found in this very state, so it binds the name in it
    have hfound : s.store.resolve env name = some id := by
      rw [Store.assignable] at hid
      split at hid
      · next hresolve =>
        cases hid
        exact hresolve
      · cases hid
    obtain ⟨hmem, hbinds⟩ := Store.of_resolve_eq_some hfound
    exact Eval.ensures_modify
      ⟨⟨hs.setSlot hname hv, F.assign (henv id hmem) hbinds hv, rfl⟩, trivial⟩
  · rw [Store.assignable] at hfault
    split at hfault
    · cases hfault
    · next hresolve =>
      cases hfault
      exact ⟨.refl hs, hV s hresolve⟩

theorem runs_define (henv : D.Scope env) {name : String} (hname : D.Name name) {v : Value}
    (hv : D.Data v) (hV : env = [] → ∀ s, V (.usage (.defineInEmptyEnvironment name)) s) :
    F.Runs V env.head? (Eval.define env name v) fun _ => True := by
  intro s hs
  refine Eval.ensures_bind (Eval.ensures_ofExcept (fun id hid => ?_) fun fault hfault => ?_)
  · cases env with
    | nil => cases hid
    | cons head rest =>
      -- the frame that is written to is the innermost one, which the footprint names
      cases hid
      have hknown : D.Known id := henv id List.mem_cons_self
      exact Eval.ensures_modify ⟨⟨hs.setSlot hname hv, F.define hknown hname hv, rfl⟩, trivial⟩
  · cases env with
    | nil =>
      cases hfault
      exact ⟨.refl hs, hV rfl s⟩
    | cons head rest => cases hfault

/-! ### Machines -/

/-- The machine keeps to the discipline and the footprint, and the verdict holds of its failures.
In an empty environment, where nothing can be defined, nothing is said of failures. -/
structure Keeps (F : Footprint D) (G : Verdict) (m : Machine) : Prop where
  evaluate : ∀ {e env}, D.Code e → D.Scope env →
    F.Runs (fun failure t => env ≠ [] → G failure t) env.head? (m.evaluate e env) D.Data
  apply : ∀ {procedure arguments}, D.Data procedure → (∀ a ∈ arguments, D.Data a) →
    F.Runs G none (m.apply procedure arguments) D.Data

variable {m : Machine} {elements es : List Value}

theorem runs_evaluateEach (hm : F.Keeps G m) (henv : D.Scope env) (hes : ∀ e ∈ es, D.Code e)
    (hV : ∀ failure t, (env ≠ [] → G failure t) → V failure t) :
    F.Runs V env.head? (m.evaluateEach env es) fun vs => ∀ v ∈ vs, D.Data v := by
  induction es with
  | nil => exact runs_pure (List.forall_mem_nil _)
  | cons e es ih =>
    obtain ⟨he, hrest⟩ := List.forall_mem_cons.1 hes
    refine ((hm.evaluate he henv).blame hV).bind fun v hv => ?_
    refine (ih hrest).bind fun vs hvs => ?_
    exact runs_pure (List.forall_mem_cons.2 ⟨hv, hvs⟩)

theorem runs_evaluateSequence (hm : F.Keeps G m) (henv : D.Scope env) (hes : ∀ e ∈ es, D.Code e)
    (hV : ∀ failure t, (env ≠ [] → G failure t) → V failure t)
    (hempty : es = [] → ∀ t, V (.malformed .emptySequence) t) :
    F.Runs V env.head? (m.evaluateSequence env es) D.Data := by
  induction es with
  | nil => exact runs_malformed (hempty rfl)
  | cons e es ih =>
    obtain ⟨he, hrest⟩ := List.forall_mem_cons.1 hes
    have hfirst := (hm.evaluate he henv).blame hV
    cases es with
    | nil => exact hfirst
    | cons e' es => exact hfirst.bind fun _ _ => ih hrest nofun

/-! ### Special forms

The verdict on a form: under the registry in which the form was found and in an environment with a
frame, its failure is one that it raises itself, or one of an evaluation or application inside. -/

variable {forms : Table SpecialForm} {self : Option Identity}

/-- The verdict on an expression, with the forms that were registered when its evaluation began. -/
def Blames (D : Discipline) (G : Verdict) (forms : Table SpecialForm) (e : Value) (env : Env) :
    Verdict :=
  fun failure t =>
    t.registry.handlers = forms → env ≠ [] → D.Raises (.evaluation e env) t failure ∨ G failure t

theorem blames_inner {e : Value} {failure : Failure} {t : State} (hG : env ≠ [] → G failure t) :
    Blames D G forms e env failure t :=
  fun _ henv => .inr (hG henv)

theorem blames_misshapen {fault : SyntaxFault} (hshape : fault.isShape = true) (t : State) :
    Blames D G forms (.list elements self) env (.malformed fault) t :=
  fun _ _ => .inl (.misshapen hshape)

theorem blames_undefinable {e : Value} {name : String} (henv : env = []) (t : State) :
    Blames D G forms e env (.usage (.defineInEmptyEnvironment name)) t :=
  fun _ hne => absurd henv hne

/-- An evaluation inside a form, in its environment. -/
theorem Keeps.evaluateIn (hm : F.Keeps G m) {e : Value} (he : D.Code e) (henv : D.Scope env)
    (form : Value) : F.Runs (Blames D G forms form env) env.head? (m.evaluate e env) D.Data :=
  (hm.evaluate he henv).blame fun _ _ => blames_inner

theorem runs_quote (helements : ∀ e ∈ elements, D.Code e) :
    F.Runs (Blames D G forms (.list elements self) env) inner (Machine.quote elements) D.Data := by
  unfold Machine.quote
  split
  · next tag datum => exact runs_pure (helements datum (by simp)).data
  · exact runs_malformed (blames_misshapen rfl)

theorem runs_assignment (hm : F.Keeps G m) (henv : D.Scope env)
    (helements : ∀ e ∈ elements, D.Code e) {tag : String} (htag : forms.get? tag = some .assign)
    (hhead : elements.head? = some (.symbol tag)) :
    F.Runs (Blames D G forms (.list elements self) env) env.head?
      (m.assign env elements) D.Data := by
  unfold Machine.assign
  split
  · next head name e =>
    obtain rfl := Option.some.inj hhead
    refine (hm.evaluateIn (helements e (by simp)) henv _).bind fun v hv => ?_
    have hname : D.Name name := (helements (.symbol name) (by simp)).of_symbol
    refine (runs_assign henv hname hv fun s hresolve hregistry _ => .inl ?_).bind
      fun _ _ => runs_pure .ok
    -- no form was registered since this one was found
    exact .unassignable (by rw [Registry.get?, hregistry, htag]) hresolve
  · exact runs_malformed (blames_misshapen rfl)

/-- The parameters of a procedure are names of the discipline, and they differ. -/
theorem parameterNames_spec {seen : List String} {parameters : List Value} {names : List String}
    (hparameters : ∀ p ∈ parameters, D.Code p)
    (h : Machine.parameterNames seen parameters = .ok names) :
    (∀ n ∈ names, D.Name n) ∧ names.Nodup ∧ ∀ n ∈ names, n ∉ seen := by
  induction parameters generalizing seen names with
  | nil =>
    cases h
    exact ⟨nofun, List.nodup_nil, nofun⟩
  | cons parameter rest ih =>
    obtain ⟨hhere, hrest⟩ := List.forall_mem_cons.1 hparameters
    cases parameter with
    | symbol name =>
      rw [Machine.parameterNames] at h
      split at h
      · cases h
      · next hnew =>
        obtain ⟨others, hothers, rfl⟩ := map_eq_ok_iff.1 h
        obtain ⟨hnames, hnodup, hseen⟩ := ih hrest hothers
        -- the parameters after this one have seen it
        have hname : name ∉ others := fun hmem => hseen name hmem List.mem_cons_self
        refine ⟨List.forall_mem_cons.2 ⟨hhere.of_symbol, hnames⟩,
          List.nodup_cons.2 ⟨hname, hnodup⟩, List.forall_mem_cons.2 ⟨?_, fun n hn hmem => ?_⟩⟩
        · simpa using hnew
        · exact hseen n hn (List.mem_cons_of_mem name hmem)
    | _ => cases h

theorem runs_close {name : Option String} {parameters body : List Value}
    (hname : ∀ n ∈ name, D.Name n) (hparameters : ∀ p ∈ parameters, D.Code p)
    (hbody : ∀ e ∈ body, D.Code e) (hne : body ≠ []) (henv : D.Scope env) :
    F.Runs (Blames D G forms (.list elements self) env) inner
      (Machine.close name parameters body env) D.Data := by
  refine (runs_ofExcept (fun names hnames => parameterNames_spec hparameters hnames)
    fun fault hfault => ?_).bind fun names hnames => ?_
  · exact blames_misshapen (checksShape_parameterNames [] parameters fault hfault)
  · exact runs_settle (.compound (fun _ => rfl) (fun _ => hnames.2.1) (fun _ => hne) hname hnames.1
      hbody henv)

theorem runs_definition (hm : F.Keeps G m) (henv : D.Scope env)
    (helements : ∀ e ∈ elements, D.Code e) :
    F.Runs (Blames D G forms (.list elements self) env) env.head?
      (m.define env elements) D.Data := by
  unfold Machine.define
  split
  · next tag name e =>
    refine (hm.evaluateIn (helements e (by simp)) henv _).bind fun v hv => ?_
    have hname : D.Name name := (helements (.symbol name) (by simp)).of_symbol
    exact (runs_define henv hname hv blames_undefinable).bind fun _ _ => runs_pure .ok
  · exact runs_malformed (blames_misshapen rfl)
  · -- the short form of a definition makes a procedure named after its head
    next tag name parameters label e es =>
    have hhead : D.Code (.list (.symbol name :: parameters) label) := helements _ (by simp)
    obtain ⟨hsymbol, hparameters⟩ := List.forall_mem_cons.1 hhead.of_list
    have hbody : ∀ b ∈ e :: es, D.Code b := fun b hb =>
      helements b (List.mem_cons_of_mem _ (List.mem_cons_of_mem _ hb))
    refine (runs_close (fun n hn => ?_) hparameters hbody (List.cons_ne_nil e es) henv).bind
      fun procedure hprocedure => ?_
    · obtain rfl := Option.some.inj hn
      exact hsymbol.of_symbol
    · exact (runs_define henv hsymbol.of_symbol hprocedure blames_undefinable).bind
        fun _ _ => runs_pure .ok
  · exact runs_malformed (blames_misshapen rfl)
  · exact runs_malformed (blames_misshapen rfl)
  · exact runs_malformed (blames_misshapen rfl)

theorem runs_conditional (hm : F.Keeps G m) (henv : D.Scope env)
    (helements : ∀ e ∈ elements, D.Code e) :
    F.Runs (Blames D G forms (.list elements self) env) env.head? (m.conditional env elements)
      D.Data := by
  unfold Machine.conditional
  -- with one branch or with two; any other number of operands is a wrong shape
  split
  · next tag test consequent =>
    refine (hm.evaluateIn (helements test (by simp)) henv _).bind fun v _ => ?_
    split
    · exact hm.evaluateIn (helements consequent (by simp)) henv _
    · exact runs_pure .boolean
  · next tag test consequent alternative =>
    refine (hm.evaluateIn (helements test (by simp)) henv _).bind fun v _ => ?_
    split
    · exact hm.evaluateIn (helements consequent (by simp)) henv _
    · exact hm.evaluateIn (helements alternative (by simp)) henv _
  · exact runs_malformed (blames_misshapen rfl)

theorem runs_lambda (henv : D.Scope env) (helements : ∀ e ∈ elements, D.Code e) :
    F.Runs (Blames D G forms (.list elements self) env) inner (Machine.lambda env elements)
      D.Data := by
  unfold Machine.lambda
  split
  · next tag parameters label e es =>
    have hlist : D.Code (.list parameters label) := helements _ (by simp)
    have hbody : ∀ b ∈ e :: es, D.Code b := fun b hb =>
      helements b (List.mem_cons_of_mem _ (List.mem_cons_of_mem _ hb))
    exact runs_close nofun hlist.of_list hbody (List.cons_ne_nil e es) henv
  · exact runs_malformed (blames_misshapen rfl)

theorem runs_sequence (hm : F.Keeps G m) (henv : D.Scope env)
    (helements : ∀ e ∈ elements, D.Code e) :
    F.Runs (Blames D G forms (.list elements self) env) env.head? (m.sequence env elements)
      D.Data := by
  unfold Machine.sequence
  split
  · exact runs_evaluateSequence hm henv (fun e he => helements e (List.mem_cons_of_mem _ he))
      (fun _ _ => blames_inner) nofun
  · exact runs_malformed (blames_misshapen rfl)

theorem runs_conjunction (hm : F.Keeps G m) (henv : D.Scope env) (hes : ∀ e ∈ es, D.Code e)
    {last : Value} (hlast : D.Data last) :
    F.Runs (Blames D G forms (.list elements self) env) env.head? (m.conjunction env last es)
      D.Data := by
  induction es generalizing last with
  | nil => exact runs_pure hlast
  | cons e es ih =>
    obtain ⟨he, hrest⟩ := List.forall_mem_cons.1 hes
    refine (hm.evaluateIn he henv _).bind fun v hv => ?_
    split
    · exact ih hrest hv
    · exact runs_pure hv

theorem runs_disjunction (hm : F.Keeps G m) (henv : D.Scope env) (hes : ∀ e ∈ es, D.Code e) :
    F.Runs (Blames D G forms (.list elements self) env) env.head?
      (m.disjunction env es) D.Data := by
  induction es with
  | nil => exact runs_pure .boolean
  | cons e es ih =>
    obtain ⟨he, hrest⟩ := List.forall_mem_cons.1 hes
    refine (hm.evaluateIn he henv _).bind fun v hv => ?_
    split
    · exact runs_pure hv
    · exact ih hrest

theorem runs_defineTransformer (henv : D.Scope env) (helements : ∀ e ∈ elements, D.Code e) :
    F.Runs (Blames D G forms (.list elements self) env) env.head?
      (Machine.defineTransformer env elements) D.Data := by
  unfold Machine.defineTransformer
  split
  · next tag name rules =>
    have hname : D.Name name := (helements (.symbol name) (by simp)).of_symbol
    have hrules : D.Code rules := helements rules (by simp)
    refine (runs_ofExcept (fun v hv => Discipline.data_make hname hrules henv hv)
      fun fault hfault => ?_).bind fun transformer htransformer => ?_
    · exact blames_misshapen (checksShape_make name rules env fault hfault)
    · -- the transformer is defined like any other value
      refine (runs_settle htransformer).bind fun settled hsettled => ?_
      exact (runs_define henv hname hsettled blames_undefinable).bind fun _ _ => runs_pure .ok
  · exact runs_malformed (blames_misshapen rfl)

theorem runs_pick {P : Value → Prop} {values : List Value} (hvalues : ∀ v ∈ values, P v)
    (hV : ∀ t, V (.eval .missingOperand) t) (number : Nat) :
    F.Runs V inner (Machine.pick values number) P := by
  unfold Machine.pick
  split
  · next v hv => exact runs_pure (hvalues v (List.mem_of_getElem? hv))
  · exact runs_fail hV

theorem runs_pickEach {P : Value → Prop} {values : List Value} (hvalues : ∀ v ∈ values, P v)
    (hV : ∀ t, V (.eval .missingOperand) t) (numbers : List Nat) :
    F.Runs V inner (Machine.pickEach values numbers) fun vs => ∀ v ∈ vs, P v := by
  induction numbers with
  | nil => exact runs_pure (List.forall_mem_nil _)
  | cons number numbers ih =>
    refine (runs_pick hvalues hV number).bind fun v hv => ?_
    exact ih.bind fun vs hvs => runs_pure (List.forall_mem_cons.2 ⟨hv, hvs⟩)

theorem runs_pickName (helements : ∀ e ∈ elements, D.Code e)
    (hV : ∀ t, V (.eval .missingOperand) t) (number : Nat) :
    F.Runs V inner (Machine.pickName elements number) D.Name := by
  unfold Machine.pickName
  split
  · next name hname => exact runs_pure (helements _ (List.mem_of_getElem? hname)).of_symbol
  · exact runs_fail hV

/-- Visible names are bound in frames of the chain. -/
theorem runs_visibleNames (henv : D.Scope env) :
    F.Runs V inner (Machine.visibleNames env) D.Data := by
  refine runs_get_bind fun s hs => runs_settle (.ofList fun v hv => ?_) s hs
  obtain ⟨name, hname, rfl⟩ := List.mem_map.1 hv
  obtain ⟨id, hid, hmem⟩ := List.mem_flatMap.1 (List.mem_eraseDups.1 hname)
  exact .symbol (hs.named id (henv id hid) name hmem)

/-- **A handler keeps to the footprint**, whatever it does, if every failure is one that it may end
in. The induction is on what it does, and what is kept is that the values that it has come by are
data. -/
theorem runs_handler (hm : F.Keeps G m) (henv : D.Scope env) (helements : ∀ e ∈ elements, D.Code e)
    (hV : ∀ failure t, V failure t) (form : HostForm) {values : List Value}
    (hvalues : ∀ v ∈ values, D.Data v) :
    F.Runs V env.head? (m.host env elements values form) D.Data := by
  -- every step of the program adds to the values it has, and what is added is in order again
  have hcons : ∀ {v : Value} {vs : List Value}, D.Data v → (∀ w ∈ vs, D.Data w) →
      ∀ w ∈ v :: vs, D.Data w := fun hv hvs => List.forall_mem_cons.2 ⟨hv, hvs⟩
  induction form generalizing values with
  | answer value => exact runs_pick hvalues (hV _) value
  | refuse fault => exact runs_fail (hV _)
  | branch value truthy falsy ihtruthy ihfalsy =>
    refine (runs_pick hvalues (hV _) value).bind fun v _ => ?_
    split
    · exact ihtruthy hvalues
    · exact ihfalsy hvalues
  | datum element next ih =>
    exact (runs_pick helements (hV _) element).bind fun e he => ih (hcons he.data hvalues)
  | evaluate element next ih =>
    refine (runs_pick helements (hV _) element).bind fun e he => ?_
    exact ((hm.evaluate he henv).blame fun failure t _ => hV failure t).bind
      fun v hv => ih (hcons hv hvalues)
  | evaluateFrom element next ih =>
    -- only elements of the form itself can be evaluated
    have hrest : ∀ e ∈ elements.drop element, D.Code e :=
      fun e he => helements e (List.mem_of_mem_drop he)
    exact (runs_evaluateSequence hm henv hrest (fun failure t _ => hV failure t)
      fun _ => hV _).bind fun v hv => ih (hcons hv hvalues)
  | apply procedure arguments next ih =>
    refine (runs_pick hvalues (hV _) procedure).bind fun p hp => ?_
    refine (runs_pickEach hvalues (hV _) arguments).bind fun vs hvs => ?_
    exact ((hm.apply hp hvs).blame fun failure t _ => hV failure t).outer.bind
      fun v hv => ih (hcons hv hvalues)
  | lookup name next ih =>
    exact (runs_lookup henv fun s _ => hV _ s).bind fun v hv => ih (hcons hv hvalues)
  | define element value next ih =>
    refine (runs_pickName helements (hV _) element).bind fun name hname => ?_
    refine (runs_pick hvalues (hV _) value).bind fun v hv => ?_
    exact (runs_define henv hname hv fun _ => hV _).bind fun _ _ => ih (hcons hv hvalues)
  | assign element value next ih =>
    refine (runs_pickName helements (hV _) element).bind fun name hname => ?_
    refine (runs_pick hvalues (hV _) value).bind fun v hv => ?_
    exact (runs_assign henv hname hv fun s _ => hV _ s).bind fun _ _ => ih (hcons hv hvalues)
  | list members next ih =>
    refine (runs_pickEach hvalues (hV _) members).bind fun vs hvs => ?_
    exact (runs_settle (.ofList hvs)).bind fun v hv => ih (hcons hv hvalues)
  | boolean b next ih => exact ih (hcons .boolean hvalues)
  | string text next ih => exact ih (hcons .string hvalues)
  | acknowledge next ih => exact ih (hcons .ok hvalues)
  | frameCount next ih => exact (runs_settle .number).bind fun v hv => ih (hcons hv hvalues)
  | visibleNames next ih => exact (runs_visibleNames henv).bind fun v hv => ih (hcons hv hvalues)

/-- Whatever happens in a form of an embedding program is its own failure. -/
theorem runs_host (hm : F.Keeps G m) (henv : D.Scope env) (helements : ∀ e ∈ elements, D.Code e)
    {form : HostForm} {tag : String} (htag : forms.get? tag = some (.host form))
    (hhead : elements.head? = some (.symbol tag)) :
    F.Runs (Blames D G forms (.list elements self) env) env.head? (m.host env elements [] form)
      D.Data := by
  refine runs_handler hm henv helements (fun failure t hregistry _ => ?_) form
    (List.forall_mem_nil _)
  obtain ⟨operands, rfl⟩ := List.head?_eq_some_iff.1 hhead
  exact .inl (.hosted (by rw [Registry.get?, hregistry, htag]))

/-- **Every special form keeps to the footprint** of the environment in which it stands. -/
theorem runs_special (hm : F.Keeps G m) (henv : D.Scope env) (helements : ∀ e ∈ elements, D.Code e)
    {form : SpecialForm} {tag : String} (htag : forms.get? tag = some form)
    (hhead : elements.head? = some (.symbol tag)) :
    F.Runs (Blames D G forms (.list elements self) env) env.head? (m.special env form elements)
      D.Data := by
  have hoperands : ∀ e ∈ elements.tail, D.Code e :=
    fun e he => helements e (List.mem_of_mem_tail he)
  cases form with
  | quote => exact runs_quote helements
  | assign => exact runs_assignment hm henv helements htag hhead
  | define => exact runs_definition hm henv helements
  | conditional => exact runs_conditional hm henv helements
  | lambda => exact runs_lambda henv helements
  | sequence => exact runs_sequence hm henv helements
  | conjunction => exact runs_conjunction hm henv hoperands .boolean
  | disjunction => exact runs_disjunction hm henv hoperands
  | defineTransformer => exact runs_defineTransformer henv helements
  | host form => exact runs_host hm henv helements htag hhead

/-! ### Applications -/

variable {arguments : List Value}

theorem runs_traced (config : Config)
    (hV : ∀ failure t depth, V failure t → V failure { t with depth })
    {name : String} (hname : D.Name name) (harguments : ∀ a ∈ arguments, D.Data a)
    {call : Eval Value} (hcall : F.Runs V inner call D.Data) :
    F.Runs V inner (Machine.traced config name arguments call) D.Data := by
  unfold Machine.traced
  split
  · refine runs_get_bind fun s hs => ?_
    -- the line is added before the call, which then runs one level deeper
    have hline : F.RunsFrom V inner s
        (Eval.emit (.trace (Machine.traceLine s.depth name arguments))) fun _ => True :=
      Eval.ensures_modify
        ⟨⟨hs, F.trace inner s name arguments hname harguments, rfl⟩, trivial⟩
    exact hline.bind fun _ _ => runs_deeper hV hcall
  · exact hcall

/-- The verdict on an application. -/
def BlamesApplication (D : Discipline) (G : Verdict) (procedure : Value) (arguments : List Value) :
    Verdict :=
  fun failure t => D.Raises (.application procedure arguments) t failure ∨ G failure t

theorem runs_perform (hm : F.Keeps G m) {action : Action} (haction : D.Name action.name)
    (harguments : ∀ a ∈ arguments, D.Data a) :
    F.Runs (BlamesApplication D G (.primitive action self) arguments) none
      (m.perform action arguments) D.Data := by
  cases action with
  | operation op =>
    refine (runs_ofExcept (fun reply hreply => Discipline.answers_perform harguments hreply)
      fun fault hfault _ => .inl (.refused hfault)).bind fun reply hreply => ?_
    -- an operation answers with a value, writes a text or asks for an application
    cases reply with
    | value v => exact runs_settle hreply
    | output text => exact (runs_output text).bind fun _ _ => runs_pure .ok
    | application procedure others =>
      exact (hm.apply hreply.1 hreply.2).blame fun _ _ => .inr
  | record name =>
    exact runs_settle (.ofList (List.forall_mem_cons.2 ⟨.symbol haction, harguments⟩))

/-- What a new frame binds: parameters to arguments. Of equal parameters the last one counts. -/
theorem of_get?_ofArguments {parameters : List String} {f : Frame}
    (hf : Frame.ofArguments parameters (arguments.map some) = .ok f) {name : String}
    {entry : Option Value} (hentry : f.get? name = some entry) :
    name ∈ parameters ∧ ∃ a ∈ arguments, some a = entry := by
  rw [Frame.ofArguments] at hf
  split at hf
  · next hlength =>
    cases hf
    rw [Frame.bind, Frame.pair_eq_zip hlength] at hentry
    -- the frame is empty before the parameters are set, so an entry is one of theirs
    rcases Table.of_get?_setAll hentry with hmem | hempty
    · obtain ⟨hname, hvalue⟩ := List.of_mem_zip hmem
      exact ⟨hname, List.mem_map.1 hvalue⟩
    · cases hempty
  · cases hf

theorem get?_ofArguments_ne {parameters : List String} {f : Frame}
    (hf : Frame.ofArguments parameters (arguments.map some) = .ok f) (name : String) :
    f.get? name ≠ some none := by
  intro hnone
  obtain ⟨-, a, -, heq⟩ := of_get?_ofArguments hf hnone
  cases heq

/-- No frame is made of more or fewer arguments than parameters. -/
theorem ofArguments_eq_error {parameters : List String} {fault : EvalFault}
    (h : Frame.ofArguments parameters (arguments.map some) = .error fault) :
    parameters.length ≠ arguments.length ∧
      fault = .arityMismatch (.exactly parameters.length) arguments.length := by
  rw [Frame.ofArguments, List.length_map] at h
  split at h
  · cases h
  · next hlength =>
    cases h
    exact ⟨hlength, rfl⟩

/-- A new frame holds the arguments under the names of the parameters. -/
theorem holds_push_ofArguments {s : Store} (hs : D.Holds s) (env : Env) {parameters : List String}
    (hparameters : ∀ n ∈ parameters, D.Name n) (harguments : ∀ a ∈ arguments, D.Data a)
    {f : Frame} (hf : Frame.ofArguments parameters (arguments.map some) = .ok f) :
    D.Holds (s.push env f).2 := by
  refine hs.push env (fun name hname => ?_) fun name v hv => ?_
  · obtain ⟨entry, hentry⟩ := (Table.mem_names_iff _ name).1 hname
    exact hparameters name (of_get?_ofArguments hf hentry).1
  · obtain ⟨-, a, ha, heq⟩ := of_get?_ofArguments hf hv
    cases heq
    exact harguments v ha

/-- **A call keeps to the footprint of an application**: its body evaluates in a new frame. -/
theorem runs_call (hm : F.Keeps G m) (henv : D.Scope env) {name : Option String}
    {parameters : List String} {body : List Value} (hparameters : ∀ n ∈ parameters, D.Name n)
    (hbody : ∀ e ∈ body, D.Code e) (hne : D.strict → body ≠ [])
    (harguments : ∀ a ∈ arguments, D.Data a) :
    F.Runs (BlamesApplication D G (.compound name parameters body env self) arguments) none (do
      let inner ← Eval.extend env parameters arguments
      m.evaluateSequence inner body) D.Data := by
  intro s hs
  refine Eval.ensures_bind (Eval.ensures_bind
    (Eval.ensures_ofExcept (fun f hf => ?_) fun fault hfault => ⟨.refl hs, .inl ?_⟩))
  · -- from here on the run is one in the new frame, seen from the state that has it
    refine Eval.ensures_modifyGet ?_
    have hpush := holds_push_ofArguments hs env hparameters harguments hf
    have hbodyRuns : F.Runs
        (BlamesApplication D G (.compound name parameters body env self) arguments)
        (s.store.push env f).1.head? (m.evaluateSequence (s.store.push env f).1 body) D.Data := by
      refine runs_evaluateSequence hm (Discipline.scope_push hs henv f) hbody
        (fun _ _ hG => .inr (hG (List.cons_ne_nil _ _))) fun hempty _ => .inl (.emptyBody ?_)
      exact fun hstrict => hne hstrict hempty
    have hcall : ∀ t, F.Leads (s.store.push env f).1.head?
        { s with store := (s.store.push env f).2 } t → F.Leads none s t :=
      fun t hst => ⟨hst.holds, F.call hs (get?_ofArguments_ne hf) hst.rel, hst.handlers⟩
    exact Eval.Ensures.imp (hbodyRuns _ hpush) (fun _ t ⟨hst, hv⟩ => ⟨hcall t hst, hv⟩)
      fun _ t ⟨hst, hfailure⟩ => ⟨hcall t hst, hfailure⟩
  · obtain ⟨hlength, rfl⟩ := ofArguments_eq_error hfault
    exact .arity hlength

/-- **One level of application.** -/
theorem Keeps.applyStep (hm : F.Keeps G m) (config : Config)
    (hG : ∀ failure t depth, G failure t → G failure { t with depth }) {procedure : Value}
    (hprocedure : D.Data procedure) (harguments : ∀ a ∈ arguments, D.Data a) :
    F.Runs (BlamesApplication D G procedure arguments) none
      (Machine.applyStep config m procedure arguments) D.Data := by
  -- raising the depth changes nothing about who is to blame
  have hV : ∀ failure t depth, BlamesApplication D G procedure arguments failure t →
      BlamesApplication D G procedure arguments failure { t with depth } := by
    rintro failure t depth (hraises | hinner)
    · exact .inl (hraises.with_depth depth)
    · exact .inr (hG failure t depth hinner)
  unfold Machine.applyStep
  split
  · cases hprocedure with
    | primitive _ hname =>
      exact runs_traced config hV hname harguments (runs_perform hm hname harguments)
  · next name parameters body env _ =>
    cases hprocedure with
    | compound _ _ hne hname hparameters hbody henv =>
      -- what the trace shows for a procedure without a name is the keyword
      have hshown : D.Name (name.getD "lambda") := by
        cases name with
        | none => exact D.keyword "lambda" (by simp)
        | some n => exact hname n rfl
      exact runs_traced config hV hshown harguments
        (runs_call hm henv hparameters hbody hne harguments)
  · next hprimitive hcompound =>
    refine runs_fail fun _ => .inl (.notAProcedure ?_)
    unfold Value.isProcedure
    split
    · exact absurd rfl (hprimitive _ _)
    · exact absurd rfl (hcompound _ _ _ _ _)
    · rfl

/-! ### Expressions -/

/-- Expansion is by a transformer that is visible where the form stands. -/
theorem find_of_ruleOf {config : Config} {s : State} {head : Value} {name : String}
    {literals : List String} {clauses : List (Value × Value)} {definition : Env}
    (h : Machine.ruleOf config s head env = .expansion name literals clauses definition) :
    ∃ tag self, s.store.find env tag
      = some (.transformer name literals clauses definition self) := by
  unfold Machine.ruleOf at h
  split at h
  · next tag =>
    split at h
    · cases h
    · split at h
      · cases h
      · split at h
        · -- the head is a symbol, no keyword, and bound to a transformer
          next name' literals' clauses' definition' self hfind =>
          cases h
          exact ⟨tag, self, hfind⟩
        · cases h
  · cases h

/-- A special form is registered under the symbol at its head. -/
theorem registered_of_ruleOf {config : Config} {s : State} {head : Value} {form : SpecialForm}
    (h : Machine.ruleOf config s head env = .special form) :
    ∃ tag, head = .symbol tag ∧ s.registry.handlers.get? tag = some form := by
  unfold Machine.ruleOf at h
  split at h
  · next tag =>
    split at h
    · next form' hform =>
      cases h
      exact ⟨tag, rfl, hform⟩
    · split at h
      · cases h
      · split at h <;> cases h
  · cases h

theorem runs_evaluateList (hm : F.Keeps G m) (config : Config) (henv : D.Scope env) {head : Value}
    {operands : List Value} (hform : ∀ e ∈ head :: operands, D.Code e) :
    F.Runs (fun failure t =>
        env ≠ [] → D.Raises (.evaluation (.list (head :: operands) self) env) t failure
          ∨ G failure t)
      env.head? (Machine.evaluateList config m head operands env) D.Data := by
  refine runs_get_bind fun s hs => ?_
  obtain ⟨hhead, hoperands⟩ := List.forall_mem_cons.1 hform
  -- the forms registered now are those registered at the end
  suffices hblames : F.RunsFrom
      (Blames D G s.registry.handlers (.list (head :: operands) self) env) env.head? s _ D.Data from
    hblames.imp (fun _ hv => hv) fun _ _ hst hfailure => hfailure hst.handlers
  cases hrule : Machine.ruleOf config s head env with
  | special form =>
    obtain ⟨tag, rfl, htag⟩ := registered_of_ruleOf hrule
    exact runs_special hm henv hform htag rfl s hs
  | derived form =>
    refine Runs.bind (P := D.Code) ?_ (fun plain hplain => hm.evaluateIn hplain henv _) s hs
    exact runs_ofExcept (fun v hv => Discipline.code_desugar hform hv)
      fun fault hfault => blames_misshapen (checksShape_desugar form _ fault hfault)
  | expansion name literals clauses definition =>
    obtain ⟨tag, _, hfind⟩ := find_of_ruleOf hrule
    -- the transformer is bound in a frame of the discipline, so its templates are code
    have htemplates : ∀ p ∈ clauses, D.Code p.2 := by
      cases hs.find henv hfind with
      | transformer _ _ _ _ htemplates _ => exact htemplates
    refine Runs.bind (P := D.Code) ?_ (fun expansion hexpansion => ?_) s hs
    · refine runs_get_bind fun t ht => ?_
      exact runs_ofExcept (fun v hv => Discipline.code_expand hform htemplates hv)
        (fun fault hfault => blames_misshapen (checksShape_expand _ _ _ _ _ _ _ fault hfault)) t ht
    · unfold Machine.evaluateExpansion
      split
      · exact (runs_settle hexpansion).bind fun settled hsettled => hm.evaluateIn hsettled henv _
      · exact runs_fail fun _ _ _ => .inl .exhausted
  | application =>
    -- the operands are evaluated even if the head is no procedure
    refine (hm.evaluateIn hhead henv _).bind (fun procedure hprocedure => ?_) s hs
    refine (runs_evaluateEach hm henv hoperands fun _ _ => blames_inner).bind fun vs hvs => ?_
    exact ((hm.apply hprocedure hvs).blame fun _ _ hG => blames_inner fun _ => hG).outer

/-- **One level of evaluation.** -/
theorem Keeps.evaluateStep (hm : F.Keeps G m) (config : Config) {e : Value} (he : D.Code e)
    (henv : D.Scope env) :
    F.Runs (fun failure t => env ≠ [] → D.Raises (.evaluation e env) t failure ∨ G failure t)
      env.head? (Machine.evaluateStep config m e env) D.Data := by
  refine runs_closeRegistry.bind fun _ _ => ?_
  split
  · exact runs_lookup henv fun s hfind _ => .inl (.unbound hfind)
  · exact runs_evaluateList hm config henv he.of_list
  · exact runs_pure he.data
  · exact runs_pure he.data
  · exact runs_pure he.data
  · -- what is left is the empty list, or a value that no text is read as
    next hsymbol hlist hnumber hstring hboolean =>
    refine runs_fail fun _ _ => .inl ?_
    cases he with
    | number => exact absurd rfl (hnumber _ _)
    | string => exact absurd rfl (hstring _)
    | boolean => exact absurd rfl (hboolean _)
    | symbol => exact absurd rfl (hsymbol _)
    | @list _ elements self =>
      cases elements with
      | nil => exact .emptyList
      | cons head operands => exact absurd rfl (hlist head operands self)
    | primitive hfree => exact .noExpression fun hstrict => nomatch hfree hstrict
    | compound hfree => exact .noExpression fun hstrict => nomatch hfree hstrict
    | transformer hfree => exact .noExpression fun hstrict => nomatch hfree hstrict

/-- **Every machine keeps to every discipline and every footprint**, however many levels it has. -/
theorem keeps_machine (F : Footprint D) (config : Config) (levels : Nat) :
    F.Keeps (fun _ _ => True) (machine config levels) := by
  induction levels with
  | zero =>
    -- without levels nothing runs
    exact ⟨fun _ _ => runs_closeRegistry.bind fun _ _ => runs_fail fun _ _ => trivial,
      fun _ _ => runs_fail fun _ => trivial⟩
  | succ levels ih =>
    -- a level is one step over a machine that keeps to everything by induction
    exact ⟨fun he henv => (ih.evaluateStep config he henv).blame fun _ _ _ _ => trivial,
      fun hprocedure harguments =>
        (ih.applyStep config (fun _ _ _ _ => trivial) hprocedure harguments).blame
          fun _ _ _ => trivial⟩

end Footprint

end SmallLisp
