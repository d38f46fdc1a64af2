import SmallLisp.Proofs.Discipline.Machine
import SmallLisp.Proofs.Source.Grammar
import SmallLisp.Session

/-!
# The invariant of sessions

Programs are read from text, so what is evaluated in a session comes from numbers, strings,
booleans, symbols and lists, and procedures are made by forms only. That makes every state between
two runs an orderly one (`Session.Orderly`), whatever the runs were and whether they failed: each
procedure has different parameters and a body, each pattern of a transformer compiles, each name in
a frame has a value.

The strict discipline `Discipline.program` says the same of code and data as evaluation sees them.
It knows all frames and allows all names, and `Footprint.session` adds that frames bind names to
values and do not disappear. A session starts with this (`exists_bareAt`, and with a prelude that
runs to its end `exists_startAt_of_runsTo`), and every run keeps to it (`Sound.run`).
-/

namespace SmallLisp

/-! ### What sessions hold -/

/-- The values that are read from text. -/
inductive Value.Source : Value → Prop where
  | number {x : Float} {self : Option Identity} : Source (.number x self)
  | string {text : String} : Source (.string text)
  | boolean {b : Bool} : Source (.boolean b)
  | symbol {name : String} : Source (.symbol name)
  | list {elements : List Value} {self : Option Identity} : (∀ v ∈ elements, Source v) →
      Source (.list elements self)

/-- The parts of a value: in lists, in the bodies of procedures, in the clauses of transformers. -/
inductive Value.Part (part : Value) : Value → Prop where
  | here : Part part part
  | element {elements : List Value} {self : Option Identity} {v : Value} : v ∈ elements →
      Part part v → Part part (.list elements self)
  | body {name : Option String} {parameters : List String} {body : List Value} {env : Env}
      {self : Option Identity} {e : Value} :
      e ∈ body → Part part e → Part part (.compound name parameters body env self)
  | pattern {name : String} {literals : List String} {clauses : List (Value × Value)} {env : Env}
      {self : Option Identity} {p : Value × Value} :
      p ∈ clauses → Part part p.1 → Part part (.transformer name literals clauses env self)
  | template {name : String} {literals : List String} {clauses : List (Value × Value)} {env : Env}
      {self : Option Identity} {p : Value × Value} :
      p ∈ clauses → Part part p.2 → Part part (.transformer name literals clauses env self)

namespace Store

/-- The values that are bound in a frame, and their parts. -/
def Contains (s : Store) (v : Value) : Prop :=
  ∃ id name w, (s.frame id).get? name = some (some w) ∧ v.Part w

/-- No frame declares a name without a value. -/
def Defined (s : Store) : Prop :=
  ∀ id name, (s.frame id).get? name ≠ some none

theorem defined_empty : empty.Defined := by
  intro id name hnone
  rw [frame_empty] at hnone
  cases hnone

theorem Defined.setSlot {s : Store} (h : s.Defined) (id : FrameId) (name : String) (v : Value) :
    (s.setSlot id name (some v)).Defined := by
  intro other n hnone
  rcases get?_frame_setSlot s hnone with hold | ⟨-, -, heq⟩
  · exact h other n hold
  · cases heq

theorem Defined.push {s : Store} (h : s.Defined) (env : Env) {f : Frame}
    (hf : ∀ name, f.get? name ≠ some none) : (s.push env f).2.Defined := by
  intro id name
  rcases Nat.lt_trichotomy id s.frames.size with hlt | rfl | hgt
  · rw [frame_push s env f hlt]
    exact h id name
  · rw [frame_push_size]
    exact hf name
  · rw [frame_of_size_le _ (by rw [size_push]; exact hgt)]
    nofun

/-- Where every bound name has a value, a name without a value is bound nowhere. -/
theorem Defined.resolve_eq_none {s : Store} (h : s.Defined) {env : Env} {name : String}
    (hfind : s.find env name = none) : s.resolve env name = none := by
  cases hresolve : s.resolve env name with
  | none => rfl
  | some id =>
    -- the name is in a frame and has a value there, so it would have been found
    exfalso
    obtain ⟨-, hbinds⟩ := of_resolve_eq_some hresolve
    rw [Table.contains_iff_mem_names, Table.mem_names_iff] at hbinds
    obtain ⟨entry, hentry⟩ := hbinds
    rw [find, hresolve] at hfind
    change ((s.frame id).get? name).join = none at hfind
    rw [hentry] at hfind
    cases entry with
    | none => exact h id name hentry
    | some v => cases hfind

theorem contains_eq_false_of_resolve {s : Store} {env : Env} {name : String}
    (h : s.resolve env name = none) : ∀ id ∈ env, (s.frame id).contains name = false := by
  intro id hid
  have hnot := List.find?_eq_none.1 h id hid
  exact Bool.not_eq_true _ ▸ hnot

end Store

/-! ### The discipline of programs -/

/-- Code is what can be read; procedures have the shape that forms give them. -/
def Discipline.program : Discipline where
  Known _ := True
  Name _ := True
  strict := True
  keyword _ _ := trivial

namespace Discipline

variable {v w : Value} {role : Role}

theorem code_of_source (h : v.Source) : program.Code v := by
  induction h with
  | number => exact .number
  | string => exact .string
  | boolean => exact .boolean
  | symbol => exact .symbol trivial
  | list _ ih => exact .list ih

theorem source_of_code (h : program.Code v) : v.Source := by
  -- procedures and transformers are data, which code is not
  have hsource : ∀ {role w}, program.Within role w → role = .code → w.Source := by
    intro role w hw hrole
    induction hw with
    | number => exact .number
    | string => exact .string
    | boolean => exact .boolean
    | symbol => exact .symbol
    | list _ ih => exact .list fun v hv => ih v hv hrole
    | primitive hfree => exact nomatch hrole.symm.trans (hfree trivial)
    | compound hfree => exact nomatch hrole.symm.trans (hfree trivial)
    | transformer hfree => exact nomatch hrole.symm.trans (hfree trivial)
  exact hsource h rfl

/-- A part of a value keeps to the discipline. -/
theorem Within.part {D : Discipline} (h : D.Within role v) (hpart : w.Part v) : D.Data w := by
  induction hpart generalizing role with
  | here => exact h.data
  | element hv _ ih => exact ih (h.of_list _ hv)
  | body he _ ih =>
    cases h with
    | compound _ _ _ _ _ hbody _ => exact ih (hbody _ he)
  | pattern hp _ ih =>
    cases h with
    | transformer _ _ _ hpatterns _ _ => exact ih (hpatterns _ hp)
  | template hp _ ih =>
    cases h with
    | transformer _ _ _ _ htemplates _ => exact ih (htemplates _ hp)

end Discipline

/-- Frames do not disappear and bind names to values. -/
def Footprint.session : Footprint .program where
  Rel _ s t := s.store.frames.size ≤ t.store.frames.size ∧ (s.store.Defined → t.store.Defined)
  refl _ _ := ⟨Nat.le_refl _, id⟩
  trans hst htu := ⟨Nat.le_trans hst.1 htu.1, fun h => htu.2 (hst.2 h)⟩
  outer h := h
  settle _ _ _ := ⟨Nat.le_refl _, id⟩
  close _ _ := ⟨Nat.le_refl _, id⟩
  output _ _ _ := ⟨Nat.le_refl _, id⟩
  trace _ _ _ _ _ _ := ⟨Nat.le_refl _, id⟩
  deeper h := h
  define _ _ _ := ⟨Nat.le_of_eq (Store.size_setSlot _ _ _ _).symm, fun h => h.setSlot _ _ _⟩
  assign _ _ _ := ⟨Nat.le_of_eq (Store.size_setSlot _ _ _ _).symm, fun h => h.setSlot _ _ _⟩
  call {s env f t} _ hf h := by
    refine ⟨?_, fun hdefined => h.2 (hdefined.push env hf)⟩
    have hsize := h.1
    rw [Store.size_push] at hsize
    exact Nat.le_of_succ_le hsize

/-! ### Programs -/

namespace Source

theorem source_of_atomValue {text : List Char} {v : Value} (h : AtomValue text v) : v.Source := by
  cases h with
  | true => exact .boolean
  | false => exact .boolean
  | number => exact .number
  | symbol => exact .symbol

mutual

theorem source_of_datum {tokens : List Token} {v : Value} : Datum tokens v → v.Source
  | .string => .string
  | .atom hatom => source_of_atomValue hatom
  | .quoted hdatum => .list (List.forall_mem_cons.2
      ⟨.symbol, List.forall_mem_singleton.2 (source_of_datum hdatum)⟩)
  | .list hdata => .list (source_of_data hdata)

theorem source_of_data {tokens : List Token} {vs : List Value} :
    Data tokens vs → ∀ v ∈ vs, v.Source
  | .nil => nofun
  | .cons hfirst hrest =>
    List.forall_mem_cons.2 ⟨source_of_datum hfirst, source_of_data hrest⟩

end

theorem source_of_read {source : String} {file : Option String} {vs : List Value}
    (h : read source file = .ok vs) : ∀ v ∈ vs, v.Source :=
  source_of_data (data_of_read h)

/-- A text that cannot be read is reported with a place. -/
theorem exists_location_of_read {source : String} {file : Option String} {failure : Failure}
    (h : read source file = .error failure) :
    ∃ fault place, failure = .read fault (some place) := by
  rw [read] at h
  cases hall : readAll source.toList with
  | ok vs =>
    rw [hall] at h
    cases h
  | error m =>
    rw [hall] at h
    cases h
    exact ⟨m.fault, _, rfl⟩

end Source

namespace Session

variable {m n : Machine} {env : Env}

/-- The expressions of a program run in the global environment, and the program fails with what they
fail with. -/
theorem runs_program {D : Discipline} {F : Footprint D} {G : Verdict} (hm : F.Keeps G m)
    (henv : D.Scope env) (hne : env ≠ []) {es : List Value} (hes : ∀ e ∈ es, D.Code e)
    (last : Option Value) (hlast : ∀ v ∈ last, D.Data v) :
    F.Runs G env.head? (program m env last es) fun result => ∀ v ∈ result, D.Data v := by
  induction es generalizing last with
  | nil => exact Footprint.runs_pure hlast
  | cons e es ih =>
    obtain ⟨he, hrest⟩ := List.forall_mem_cons.1 hes
    refine (Footprint.runs_settle he).bind fun settled hsettled => ?_
    have hevaluate := (hm.evaluate hsettled henv).blame fun _ _ hG => hG hne
    exact hevaluate.bind fun v hv => ih hrest (some v) fun w hw => Option.mem_some.1 hw ▸ hv

/-! ### The invariant -/

/-- What the discipline of programs says of a session over the core forms. -/
structure Sound (s : Session) : Prop where
  holds : Discipline.program.Holds s.state.store
  defined : s.state.store.Defined
  /-- No form was registered after the core forms. -/
  forms : s.state.registry.handlers = SpecialForm.registry.handlers
  global : ∃ id < s.state.store.frames.size, s.global = [id]

variable {s : Session}

/-- A sound session runs what was read from text within the discipline of programs. -/
theorem Sound.runsFrom (h : s.Sound) {G : Verdict} (hm : Footprint.session.Keeps G m)
    {es : List Value} (hes : ∀ e ∈ es, e.Source) :
    Footprint.session.RunsFrom G s.global.head? s.state (program m s.global none es)
      fun _ => True := by
  obtain ⟨id, -, hglobal⟩ := h.global
  have hne : s.global ≠ [] := by
    rw [hglobal]
    exact List.cons_ne_nil id []
  have hcode : ∀ e ∈ es, Discipline.program.Code e :=
    fun e he => Discipline.code_of_source (hes e he)
  have hruns := runs_program hm (fun _ _ => trivial) hne hcode none nofun s.state h.holds
  exact hruns.imp (fun _ _ => trivial) fun _ _ _ hfailure => hfailure

/-- The state after a run. -/
theorem state_perform {α : Type} (s : Session) (x : Eval α) :
    (s.perform x).2 = { s with state := x.finalState s.state } := by
  rw [perform, Eval.finalState]
  cases x s.state <;> rfl

theorem of_perform_eq_error {α : Type} {s t : Session} {x : Eval α} {failure : Failure}
    (h : s.perform x = (.error failure, t)) : x s.state = .error failure t.state := by
  rw [perform] at h
  split at h
  · cases h
  · next heq =>
    cases h
    exact heq

theorem Sound.of_leads (h : s.Sound) {t : State} {inner : Option FrameId}
    (hleads : Footprint.session.Leads inner s.state t) : Sound { s with state := t } where
  holds := hleads.holds
  defined := hleads.rel.2 h.defined
  forms := hleads.handlers.trans h.forms
  global := by
    obtain ⟨id, hid, hglobal⟩ := h.global
    exact ⟨id, Nat.lt_of_lt_of_le hid hleads.rel.1, hglobal⟩

/-- **Every run keeps a session sound**, whether it fails or not. -/
theorem Sound.run (h : s.Sound) (source : String) (file : Option String) :
    Sound (s.run source file).2 := by
  rw [Session.run]
  split
  · -- a text that cannot be read does nothing
    exact h
  · next expressions hread =>
    rw [state_perform]
    have hruns := h.runsFrom (Footprint.session.keeps_machine s.config s.limit)
      (Source.source_of_read hread)
    exact h.of_leads hruns.leads

/-- Runs texts one after the other, each with the name under which it is read. -/
def runAll (s : Session) : List (String × Option String) → Session
  | [] => s
  | (source, file) :: rest => (s.run source file).2.runAll rest

theorem Sound.runAll (h : s.Sound) (texts : List (String × Option String)) :
    (s.runAll texts).Sound := by
  induction texts generalizing s with
  | nil => exact h
  | cons text rest ih => exact ih (h.run text.1 text.2)

/-! ### How sessions start -/

/-- The constants that are defined after the primitives. -/
theorem runs_constants {D : Discipline} {F : Footprint D} {global : Env} (henv : D.Scope global)
    (hne : global ≠ []) (htrue : D.Name "true") (hfalse : D.Name "false") :
    F.Runs (fun _ _ => False) global.head? (do
      Eval.define global "true" (.boolean true)
      Eval.define global "false" (.boolean false)
      pure global) fun env => env = global := by
  have hdefine : ∀ name b, D.Name name → F.Runs (fun _ _ => False) global.head?
      (Eval.define global name (.boolean b)) fun _ => True := by
    intro name b hname
    exact Footprint.runs_define henv hname .boolean fun hempty => absurd hempty hne
  refine (hdefine "true" true htrue).bind fun _ _ => ?_
  refine (hdefine "false" false hfalse).bind fun _ _ => ?_
  exact Footprint.runs_pure rfl

/-- **The global environment is one frame.** Once it is made, what is left to do keeps to every
discipline that allows the names in it. -/
theorem ensures_globalEnvironment {D : Discipline} (F : Footprint D) (hknown : ∀ id, D.Known id)
    (hnames : ∀ op : Operation, D.Name op.name) (htrue : D.Name "true") (hfalse : D.Name "false")
    (registry : Registry SpecialForm) :
    globalEnvironment.Ensures (State.initial registry)
      (fun global t => global = [0] ∧ ∃ (f : Frame) (next : Identity),
        (∀ name, f.get? name ≠ some none) ∧
        F.Leads (some 0)
          { State.initial registry with
            nextIdentity := next
            store := ((∅ : Store).push [] f).2 } t) fun _ _ => False := by
  -- the store is empty, so there is nothing in it that could be out of order
  have hempty : D.Holds (∅ : Store) := by
    refine ⟨fun id _ => hknown id, fun id _ name hname => ?_, fun id _ name v hv => ?_⟩
    · rw [show (∅ : Store).frame id = ∅ from Store.frame_empty id] at hname
      cases hname
    · rw [show (∅ : Store).frame id = ∅ from Store.frame_empty id] at hv
      cases hv
  let primitives := Operation.all.map fun op => Value.primitive (.operation op) none
  -- the values of the global frame are the primitives and nothing else
  have hsettled : ∀ v ∈ (Value.settleAll primitives 0).1, D.Data v := by
    intro v hv
    obtain ⟨w, hw, middle, rfl⟩ := Value.mem_settleAll hv
    obtain ⟨op, -, rfl⟩ := List.mem_map.1 hw
    exact Discipline.Within.settle (.primitive (fun _ => rfl) (hnames op)) middle
  have hparameters : ∀ name ∈ Operation.all.map Operation.name, D.Name name := by
    intro name hname
    obtain ⟨op, -, rfl⟩ := List.mem_map.1 hname
    exact hnames op
  -- as many names as values, so the frame can be made
  have hlength : (Operation.all.map Operation.name).length
      = (Value.settleAll primitives 0).1.length := by
    rw [Value.length_settleAll, List.length_map, List.length_map]
  refine Eval.ensures_bind (Eval.ensures_modifyGet ?_)
  refine Eval.ensures_bind (Eval.ensures_bind (Eval.ensures_ofExcept (fun f hf => ?_)
    fun fault hfault => ?_))
  · refine Eval.ensures_modifyGet ?_
    have hpush : D.Holds ((∅ : Store).push [] f).2 :=
      Footprint.holds_push_ofArguments hempty [] hparameters hsettled hf
    -- the two constants are defined in the new frame, which is the only one
    have hconstants := runs_constants (F := F) (fun id _ => hknown id) (List.cons_ne_nil 0 [])
      htrue hfalse
    refine Eval.Ensures.imp (hconstants _ hpush) ?_ fun _ _ ⟨_, hfalse⟩ => hfalse
    rintro global t ⟨hleads, rfl⟩
    exact ⟨rfl, f, _, Footprint.get?_ofArguments_ne hf, hleads⟩
  · exact (Footprint.ofArguments_eq_error hfault).1 hlength

theorem exists_bareAt (limit : Nat) (config : Config) (registry : Registry SpecialForm)
    (hforms : registry.handlers = SpecialForm.registry.handlers) :
    ∃ s, bareAt limit config registry = .ok s ∧ s.Sound := by
  have hensures := ensures_globalEnvironment Footprint.session (fun _ => trivial)
    (fun _ => trivial) trivial trivial registry
  unfold bareAt
  unfold Eval.Ensures at hensures
  -- the global environment is made without failure, whatever the registry holds
  split at hensures
  · next global t heq =>
    obtain ⟨rfl, f, next, hf, hleads⟩ := hensures
    rw [heq]
    exact ⟨_, rfl, hleads.holds, hleads.rel.2 (Store.defined_empty.push [] hf),
      hleads.handlers.trans hforms, 0, hleads.rel.1, rfl⟩
  · exact hensures.elim

/-- What holds of a session without the prelude and is kept by runs holds of every session that
starts. -/
theorem of_startAt {P : Session → Prop} {limit : Nat} {registry : Registry SpecialForm}
    {tracing prelude : Bool}
    (hbare : ∀ b, bareAt limit { derived := Derived.all, tracing } registry = .ok b → P b)
    (hrun : ∀ b source file, P b → P (b.run source file).2)
    (h : startAt limit registry tracing prelude = .ok s) : P s := by
  cases prelude with
  | false => exact hbare s h
  | true =>
    obtain ⟨b, hb, hload⟩ := bind_eq_ok_iff.1 h
    -- the prelude is one more text that is run
    have hafter := hrun b Prelude.source Prelude.file (hbare b hb)
    rw [load] at hload
    split at hload
    · next heq =>
      cases hload
      rwa [heq] at hafter
    · cases hload

/-- Sessions without the prelude start. -/
theorem exists_start_bare (tracing : Bool) :
    ∃ s, start SpecialForm.registry tracing false = .ok s ∧ s.Sound :=
  exists_bareAt nestingLimit { derived := Derived.all, tracing } SpecialForm.registry rfl

/-- Whether the text reads as a program that runs to its end, and this in a session that passes the
test. -/
def runsTo (s : Session) (test : Session → Bool) (cs : List Char) : Bool :=
  match Source.readAll cs with
  | .ok es =>
    match s.perform (program s.machine s.global none es) with
    | (.ok _, t) => test t
    | (.error _, _) => false
  | .error _ => false

theorem exists_load {source : String} {cs : List Char} (hchars : source.toList = cs)
    {test : Session → Bool} (hends : s.runsTo test cs = true) (file : Option String) :
    ∃ v t, s.run source file = (.ok v, t) ∧ s.load source file = .ok t ∧ test t = true := by
  unfold runsTo at hends
  split at hends
  · next es hall =>
    -- the text is given by its characters, for these can be computed with
    have hread : Source.read source file = .ok es := by
      rw [Source.read, hchars, hall]
      rfl
    have hrun : s.run source file = s.perform (program s.machine s.global none es) := by
      rw [run, hread]
    split at hends
    · next v t hperform =>
      rw [hperform] at hrun
      refine ⟨v, t, hrun, ?_, hends⟩
      rw [load, hrun]
    · cases hends
  · cases hends

/-- With a prelude that runs to its end, sessions start. -/
theorem exists_startAt_of_runsTo {limit : Nat} {tracing : Bool} {cs : List Char}
    (hchars : Prelude.source.toList = cs) {test : Session → Bool}
    (hends : ∀ b, bareAt limit { derived := Derived.all, tracing } SpecialForm.registry = .ok b →
      b.runsTo test cs = true) :
    ∃ s, startAt limit SpecialForm.registry tracing true = .ok s ∧ s.Sound ∧ test s = true := by
  obtain ⟨b, hb, hsound⟩ :=
    exists_bareAt limit { derived := Derived.all, tracing } SpecialForm.registry rfl
  obtain ⟨v, t, hrun, hload, htest⟩ := exists_load hchars (hends b hb) Prelude.file
  have hafter := hsound.run Prelude.source Prelude.file
  rw [hrun] at hafter
  refine ⟨t, ?_, hafter, htest⟩
  change (bareAt limit _ _ >>= fun s => s.load Prelude.source Prelude.file) = .ok t
  exact bind_eq_ok_iff.2 ⟨b, hb, hload⟩

/-! ### Orderly sessions -/

/-- The state of a session between two runs. -/
structure Orderly (s : Session) : Prop where
  /-- The parameters of a procedure differ, and its body was read from text and is not empty. -/
  procedures : ∀ name parameters body env self,
    s.state.store.Contains (.compound name parameters body env self) →
      parameters.Nodup ∧ body ≠ [] ∧ ∀ e ∈ body, e.Source
  /-- The patterns of a transformer compile. -/
  transformers : ∀ name literals clauses env self,
    s.state.store.Contains (.transformer name literals clauses env self) →
      ∀ p ∈ clauses, ∃ c, Transformer.compileClause literals p.1 = .ok c
  /-- Each name in a frame has a value. -/
  defined : ∀ id, ∀ name ∈ (s.state.store.frame id).names,
    ∃ v, (s.state.store.frame id).get? name = some (some v)
  /-- The global environment is one frame. -/
  global : ∃ id < s.state.store.frames.size, s.global = [id]

/-- What a sound session holds keeps to the discipline of programs. -/
theorem Sound.data (h : s.Sound) {v : Value} (hv : s.state.store.Contains v) :
    Discipline.program.Data v := by
  obtain ⟨id, name, w, hw, hpart⟩ := hv
  exact (h.holds.bound id trivial name w hw).part hpart

theorem Sound.orderly (h : s.Sound) : s.Orderly where
  procedures name parameters body env self hcontains := by
    cases h.data hcontains with
    | compound _ hnodup hne _ _ hbody _ =>
      exact ⟨hnodup trivial, hne trivial, fun e he => Discipline.source_of_code (hbody e he)⟩
  transformers name literals clauses env self hcontains := by
    cases h.data hcontains with
    | transformer _ hcompiles _ _ _ _ => exact hcompiles trivial
  defined id name hname := by
    obtain ⟨entry, hentry⟩ := (Table.mem_names_iff _ name).1 hname
    cases entry with
    | none => exact absurd hentry (h.defined id name)
    | some v => exact ⟨v, hentry⟩
  global := h.global

end Session

end SmallLisp
