import SmallLisp.Proofs.Run.Sealing
import SmallLisp.Proofs.Session.Composition
import SmallLisp.Proofs.Session.Invariant

/-!
# What becomes of a registry

A registry is used by the program that embeds the language and by all evaluators and runtimes that
were made with it (`Registry.Use`). Whatever these do, in whatever order and whatever fails, the
registry is an append-only table that the first evaluation freezes (`Registry.appendOnly`): it holds
just the registrations that succeeded, in their order, and once a use has sealed it, it never
changes again.

A use of an evaluator comes with that evaluator in any state, of which only the registry is the
shared one. So nothing is said about what evaluators have in common. The handlers of an embedding
program may use the registry while they are run, and a handler is any function. To the registry such
an evaluation is its sealing and what the handlers do then, whatever that is and however deep they
are nested (`Registry.Use.within`).

Two facts about one use carry the inductions over uses (`Use.Lawful`): it appends the registrations
of it that succeed, and it seals the registry just if it is of a kind that does. For runs both rest
on `Proofs.Run.Sealing`. A sealed registry accepts no registration, so it is left as it is by every
use of which this is known, and that is what a use needs of those nested in it (`Use.lawful`).
-/

namespace SmallLisp

namespace Registry

variable {η : Type} {r : Registry η}

/-! ### Registrations -/

/-- The registrations of a list that succeed, from the first to the one before the first that is
refused. -/
def accepted (r : Registry η) : List (String × η) → List (String × η)
  | [] => []
  | (tag, handler) :: rest =>
    match r.register tag handler with
    | .ok r => (tag, handler) :: r.accepted rest
    | .error _ => []

theorem register_of_isSealed (h : r.isSealed = true) (tag : String) (handler : η) :
    r.register tag handler = .error (.registrySealed tag) := by
  rw [register, if_pos h]

/-- An open registry accepts just the tags that it does not have. -/
theorem register_of_open (h : r.isSealed = false) (tag : String) (handler : η) :
    r.register tag handler
      = if tag ∈ r.tags then .error (.duplicateForm tag)
        else .ok { r with handlers := r.handlers.set tag handler } := by
  have hopen : ¬ r.isSealed = true := by rw [h]; exact Bool.false_ne_true
  rw [register, if_neg hopen]
  exact if_congr (Table.contains_iff_mem_names _ _) rfl rfl

/-- **A registration that succeeds appends its pair**, and the tag was not there. -/
theorem of_register_eq_ok {t : Registry η} {tag : String} {handler : η}
    (h : r.register tag handler = .ok t) :
    r.isSealed = false ∧ tag ∉ r.tags ∧ t.isSealed = false
      ∧ t.handlers.entries = r.handlers.entries ++ [(tag, handler)] := by
  cases hsealed : r.isSealed with
  | true =>
    rw [register_of_isSealed hsealed] at h
    cases h
  | false =>
    rw [register_of_open hsealed] at h
    split at h
    · cases h
    · next htag =>
      cases h
      exact ⟨rfl, htag, hsealed, Table.entries_set_of_notMem htag handler⟩

theorem tags_eq (r : Registry η) : r.tags = r.handlers.entries.map Prod.fst := rfl

/-- The tags after a registration that succeeds. -/
theorem tags_of_register {t : Registry η} {tag : String} {handler : η}
    (h : r.register tag handler = .ok t) : t.tags = r.tags ++ [tag] := by
  obtain ⟨-, -, -, hentries⟩ := of_register_eq_ok h
  rw [tags_eq, hentries, List.map_append, List.map_singleton, tags_eq]

/-- One registration after the other appends what is accepted. -/
theorem registerAll_spec (r : Registry η) (pairs : List (String × η)) :
    (r.registerAll pairs).2.handlers.entries = r.handlers.entries ++ r.accepted pairs
      ∧ (r.registerAll pairs).2.isSealed = r.isSealed := by
  induction pairs generalizing r with
  | nil => exact ⟨(List.append_nil _).symm, rfl⟩
  | cons p pairs ih =>
    rw [registerAll, accepted]
    cases hregister : r.register p.1 p.2 with
    | ok t =>
      obtain ⟨hopen, -, hstill, hentries⟩ := of_register_eq_ok hregister
      -- the induction is on the pairs: what the rest adds comes behind the first entry
      have hrest := ih t
      rw [hentries, hstill, List.append_assoc] at hrest
      rw [hopen]
      exact hrest
    | error fault => exact ⟨(List.append_nil _).symm, rfl⟩

theorem nodup_tags_registerAll (h : r.tags.Nodup) (pairs : List (String × η)) :
    (r.registerAll pairs).2.tags.Nodup := by
  induction pairs generalizing r with
  | nil => exact h
  | cons p pairs ih =>
    rw [registerAll]
    cases hregister : r.register p.1 p.2 with
    | ok t =>
      refine ih ?_
      rw [tags_of_register hregister]
      refine List.nodup_append.2 ⟨h, List.pairwise_singleton _ _, fun tag htag last hlast heq => ?_⟩
      rw [heq, List.mem_singleton.1 hlast] at htag
      -- a tag that was accepted was not there
      exact (of_register_eq_ok hregister).2.1 htag
    | error fault => exact h

/-- **An open registry refuses a list of different tags** at the first one that it has, and has then
accepted those before it. -/
theorem registerAll_eq_refused {t : Registry η} {pairs : List (String × η)} {fault : UsageFault}
    (hopen : r.isSealed = false) (hnodup : (pairs.map Prod.fst).Nodup)
    (h : r.registerAll pairs = (some fault, t)) :
    ∃ before tag handler later, pairs = before ++ (tag, handler) :: later
      ∧ fault = .duplicateForm tag ∧ tag ∈ r.tags ∧ (∀ p ∈ before, p.1 ∉ r.tags)
      ∧ t.handlers.entries = r.handlers.entries ++ before := by
  induction pairs generalizing r with
  | nil => cases h
  | cons p pairs ih =>
    obtain ⟨tag, handler⟩ := p
    rw [List.map_cons, List.nodup_cons] at hnodup
    rw [registerAll] at h
    cases hregister : r.register tag handler with
    | error found =>
      rw [hregister] at h
      cases h
      rw [register_of_open hopen] at hregister
      split at hregister
      · next htag =>
        cases hregister
        -- the first pair is the one that is refused, and nothing stands before it
        exact ⟨[], tag, handler, pairs, rfl, rfl, htag, nofun, (List.append_nil _).symm⟩
      · cases hregister
    | ok next =>
      rw [hregister] at h
      obtain ⟨-, htag, hstill, happended⟩ := of_register_eq_ok hregister
      obtain ⟨before, found, handler', later, rfl, hfault, hfound, hbefore, hentries⟩ :=
        ih hstill hnodup.2 h
      rw [tags_of_register hregister] at hfound hbefore
      -- the tag that was just added is not the one that is refused
      have hother : found ≠ tag := by
        rintro rfl
        exact hnodup.1 (List.mem_map.2 ⟨(found, handler'), by simp, rfl⟩)
      refine ⟨(tag, handler) :: before, found, handler', later, rfl, hfault, ?_, ?_, ?_⟩
      · exact (List.mem_append.1 hfound).resolve_right fun h => hother (List.mem_singleton.1 h)
      · exact List.forall_mem_cons.2 ⟨htag, fun p hp hmem =>
          hbefore p hp (List.mem_append_left _ hmem)⟩
      · rw [hentries, happended, List.append_assoc, List.singleton_append]

/-! ### Uses -/

/-- What is done with a registry. An evaluator and a runtime come as they are at that time, but for
the registry. -/
inductive Use where
  /-- A form is registered. -/
  | register (tag : String) (form : SpecialForm)
  /-- The core forms are registered. -/
  | install
  | close
  /-- An evaluator evaluates an expression. -/
  | evaluate (s : Session) (e : Value) (env : Env)
  /-- An evaluator applies a procedure. -/
  | apply (s : Session) (procedure : Value) (arguments : List Value)
  /-- A runtime runs a text. -/
  | run (s : Session) (source : String) (file : Option String)
  /-- A runtime is made, with the prelude or without. -/
  | start (limit : Nat) (config : Config) (prelude : Bool)
  /-- An evaluator evaluates an expression, and the handlers of the embedding program that take part
  use the registry. It ends in any way. -/
  | within (uses : List Use) (result : Except Failure Unit)

end Registry

/-- The session over another registry. -/
def Session.over (s : Session) (r : Registry SpecialForm) : Session :=
  { s with state := { s.state with registry := r } }

namespace Registry

/-- How something ends that a session does, and the registry after it. -/
def ending {α : Type} (result : Except Failure α × Session) :
    Except Failure Unit × Registry SpecialForm :=
  (result.1.map fun _ => (), result.2.state.registry)

mutual

/-- How a use of a registry ends, and the registry after it. -/
def Use.perform (r : Registry SpecialForm) : Use → Except Failure Unit × Registry SpecialForm
  | .register tag form =>
    match r.register tag form with
    | .ok r => (.ok (), r)
    | .error fault => (.error (.usage fault), r)
  | .install =>
    match r.registerAll SpecialForm.core with
    | (none, r) => (.ok (), r)
    | (some fault, r) => (.error (.usage fault), r)
  | .close => (.ok (), r.close)
  | .evaluate s e env => ending ((s.over r).perform (s.machine.evaluate e env))
  | .apply s procedure arguments =>
    ending ((s.over r).perform (s.machine.apply procedure arguments))
  | .run s source file => ending ((s.over r).run source file)
  | .start limit config prelude =>
    match Session.bareAt limit config r with
    | .ok s => if prelude then ending (s.run Prelude.source Prelude.file)
      else (.ok (), s.state.registry)
    | .error failure => (.error failure, r)
  | .within uses result => (result, after r.close uses)

/-- The registry after several uses. -/
def after (r : Registry SpecialForm) : List Use → Registry SpecialForm
  | [] => r
  | use :: uses => after (use.perform r).2 uses

end

/-- What a use is to register. -/
def Use.offers : Use → List (String × SpecialForm)
  | .register tag form => [(tag, form)]
  | .install => SpecialForm.core
  | _ => []

/-- The registrations that succeed in the course of several uses, in their order. -/
def registrations (r : Registry SpecialForm) : List Use → List (String × SpecialForm)
  | [] => []
  | use :: uses => r.accepted use.offers ++ (use.perform r).2.registrations uses

/-- The use seals the registry: it says so, or it starts an evaluation. -/
inductive Use.Closes : Use → Prop where
  | close : Closes .close
  | evaluate {s : Session} {e : Value} {env : Env} : Closes (.evaluate s e env)
  /-- For one, the procedure is a compound one with a body, and as many arguments are given. -/
  | apply {s : Session} {procedure : Value} {arguments : List Value} :
      Machine.StartsEvaluation s.limit procedure arguments → Closes (.apply s procedure arguments)
  /-- The text can be read, and there is something in it. -/
  | run {s : Session} {source : String} {file : Option String} {e : Value} {es : List Value} :
      Source.read source file = .ok (e :: es) → Closes (.run s source file)
  /-- The prelude is a text that a new runtime runs. -/
  | prelude {limit : Nat} {config : Config} : Closes (.start limit config true)
  | within {uses : List Use} {result : Except Failure Unit} : Closes (.within uses result)

/-! ### One use -/

variable {r : Registry SpecialForm}

/-- What a session does with the registry, told by whether it seals it. -/
theorem ending_perform {α : Type} {p : Prop} {x : Eval α} (h : x.SealsIf p) (s : Session) :
    (ending ((s.over r).perform x)).2.handlers = r.handlers
      ∧ ((ending ((s.over r).perform x)).2.isSealed = true ↔ r.isSealed = true ∨ p) := by
  rw [ending, Session.state_perform]
  exact ⟨h.handlers _, h.isSealed_iff _⟩

theorem ending_run (s : Session) (source : String) (file : Option String) :
    (ending ((s.over r).run source file)).2.handlers = r.handlers
      ∧ ((ending ((s.over r).run source file)).2.isSealed = true
        ↔ r.isSealed = true ∨ ∃ e es, Source.read source file = .ok (e :: es)) := by
  cases hread : Source.read source file with
  | error failure =>
    rw [Session.run_of_read_error hread]
    -- a text that cannot be read does not reach the evaluator, which is what closes the registry
    exact ⟨rfl, (or_iff_left nofun).symm⟩
  | ok es =>
    rw [Session.run_of_read hread]
    have hprogram := ending_perform (r := r)
      (Session.sealsIf_program s.config s.limit s.global none es) s
    refine ⟨hprogram.1, hprogram.2.trans (or_congr_right ?_)⟩
    simp only [List.ne_nil_iff_exists_cons, Except.ok.injEq]

/-- A runtime can be made over every registry, and without the prelude that does nothing to it. -/
theorem exists_bareAt (limit : Nat) (config : Config) (r : Registry SpecialForm) :
    ∃ s, Session.bareAt limit config r = .ok s ∧ s.over r = s := by
  have hends := Session.ensures_globalEnvironment (Footprint.sealing (.frames fun _ => True))
    (fun _ => trivial) (fun _ => trivial) trivial trivial r
  have hseals := Session.sealsIf_globalEnvironment
  cases hrun : Session.globalEnvironment (State.initial r) with
  | error failure t => exact (hends.of_eq_error hrun).elim
  | ok global t =>
    have hhandlers := hseals.handlers (State.initial r)
    have hsealed := hseals.isSealed_iff (State.initial r)
    rw [Eval.finalState_of_ok hrun] at hhandlers hsealed
    -- making the global frame evaluates nothing, so the registry leaves it as it came
    have hregistry : t.registry = r :=
      congrArg₂ Registry.mk hhandlers (Bool.eq_iff_iff.2 (hsealed.trans (or_iff_left id)))
    rw [Session.bareAt, hrun]
    exact ⟨_, rfl, congrArg (fun registry => Session.mk _ _ _ { t with registry }) hregistry.symm⟩

/-- Whether the characters read as a text with something in it. -/
def beginsProgram (cs : List Char) : Bool :=
  match Source.readAll cs with
  | .ok (_ :: _) => true
  | _ => false

theorem exists_read_of_beginsProgram {source : String} {cs : List Char}
    (hchars : source.toList = cs) (h : beginsProgram cs = true) (file : Option String) :
    ∃ e es, Source.read source file = .ok (e :: es) := by
  rw [beginsProgram] at h
  split at h
  · next e es hall =>
    refine ⟨e, es, ?_⟩
    rw [Source.read, hchars, hall]
    rfl
  · cases h

set_option maxRecDepth 4000 in
/-- There is something in the prelude. -/
theorem exists_read_prelude :
    ∃ e es, Source.read Prelude.source Prelude.file = .ok (e :: es) := by
  refine exists_read_of_beginsProgram String.toList_ofList ?_ _
  decide +kernel

/-- Making a runtime registers nothing, and it seals the registry if the prelude is run. -/
theorem perform_start (r : Registry SpecialForm) (limit : Nat) (config : Config) (prelude : Bool) :
    ((Use.start limit config prelude).perform r).2.handlers = r.handlers
      ∧ (((Use.start limit config prelude).perform r).2.isSealed = true
        ↔ r.isSealed = true ∨ prelude = true) := by
  obtain ⟨s, hbare, hover⟩ := exists_bareAt limit config r
  cases prelude with
  | true =>
    -- a runtime with the prelude closes its registry at once: the prelude is not an empty text
    have hrun := ending_run (r := r) s Prelude.source Prelude.file
    rw [hover] at hrun
    rw [Use.perform, hbare]
    exact ⟨hrun.1, hrun.2.trans (or_congr_right (iff_of_true exists_read_prelude rfl))⟩
  | false =>
    rw [Use.perform, hbare, ← hover]
    exact ⟨rfl, (or_iff_left Bool.false_ne_true).symm⟩

/-- The core forms are registered one after the other. -/
theorem perform_install (r : Registry SpecialForm) :
    (Use.install.perform r).2 = (r.registerAll SpecialForm.core).2 := by
  rw [Use.perform]
  rcases r.registerAll SpecialForm.core with ⟨_ | fault, t⟩ <;> rfl

theorem accepted_of_isSealed {η : Type} {r : Registry η} (h : r.isSealed = true)
    (pairs : List (String × η)) : r.accepted pairs = [] := by
  cases pairs with
  | nil => rfl
  | cons p pairs => rw [accepted, register_of_isSealed h]

/-- What a use does to a registry. -/
structure Use.Lawful (use : Use) : Prop where
  /-- It appends the registrations of it that succeed, and nothing else. -/
  entries : ∀ r, (use.perform r).2.handlers.entries = r.handlers.entries ++ r.accepted use.offers
  /-- The registry is sealed afterwards if it was before or if the use seals it. -/
  isSealed_iff : ∀ r, (use.perform r).2.isSealed = true ↔ r.isSealed = true ∨ use.Closes

/-- A sealed registry accepts no registration, so a lawful use leaves it as it is. -/
theorem Use.Lawful.perform_of_isSealed {use : Use} (h : use.Lawful) (hr : r.isSealed = true) :
    (use.perform r).2 = r := by
  have hentries := h.entries r
  rw [accepted_of_isSealed hr, List.append_nil] at hentries
  have hsealed := (h.isSealed_iff r).2 (.inl hr)
  exact congrArg₂ Registry.mk (congrArg Table.mk hentries) (hsealed.trans hr.symm)

theorem after_of_lawful {uses : List Use} (h : ∀ use ∈ uses, use.Lawful) (hr : r.isSealed = true) :
    after r uses = r := by
  induction uses with
  | nil => rw [after]
  | cons use uses ih =>
    obtain ⟨huse, hrest⟩ := List.forall_mem_cons.1 h
    rw [after, huse.perform_of_isSealed hr, ih hrest]

/-- A use that has nothing to register is told by whether it seals the registry. -/
theorem Use.lawful_of_offers_eq_nil {use : Use} (hoffers : use.offers = [])
    (h : ∀ r, (use.perform r).2.handlers = r.handlers
      ∧ ((use.perform r).2.isSealed = true ↔ r.isSealed = true ∨ use.Closes)) : use.Lawful where
  entries r := by rw [(h r).1, hoffers, accepted, List.append_nil]
  isSealed_iff r := (h r).2

theorem Use.lawful_register (tag : String) (form : SpecialForm) : (register tag form).Lawful := by
  constructor
  · intro r
    rw [Use.perform, Use.offers]
    cases hregister : r.register tag form with
    | ok t =>
      simp only [accepted, hregister]
      exact (of_register_eq_ok hregister).2.2.2
    | error fault => simp only [accepted, hregister, List.append_nil]
  · intro r
    rw [or_iff_left nofun, Use.perform]
    cases hregister : r.register tag form with
    | ok t =>
      obtain ⟨hopen, -, hstill, -⟩ := of_register_eq_ok hregister
      exact iff_of_eq (congrArg (· = true) (hstill.trans hopen.symm))
    | error fault => exact Iff.rfl

theorem Use.lawful_install : install.Lawful := by
  constructor
  · intro r
    rw [perform_install]
    exact (registerAll_spec r SpecialForm.core).1
  · intro r
    rw [or_iff_left nofun, perform_install, (registerAll_spec r SpecialForm.core).2]

/-- What the handlers do with the registry finds it sealed, and so leaves it as the evaluation has
found it but for that. -/
theorem Use.lawful_within {uses : List Use} (h : ∀ use ∈ uses, use.Lawful)
    (result : Except Failure Unit) : (within uses result).Lawful := by
  refine lawful_of_offers_eq_nil rfl fun r => ?_
  rw [Use.perform, after_of_lawful h (r := r.close) rfl]
  exact ⟨rfl, iff_of_true rfl (.inr .within)⟩

mutual

/-- **Every use is lawful**, by induction on the uses that are nested in it. -/
theorem Use.lawful : (use : Use) → use.Lawful
  | .register tag form => lawful_register tag form
  | .install => lawful_install
  | .close => lawful_of_offers_eq_nil rfl fun _ => ⟨rfl, iff_of_true rfl (.inr .close)⟩
  | .evaluate s e env => by
    refine lawful_of_offers_eq_nil rfl fun r => ?_
    have hends := ending_perform (r := r) (Machine.sealsIf_evaluate s.config s.limit e env) s
    exact ⟨hends.1, hends.2.trans (iff_of_true (.inr trivial) (.inr .evaluate))⟩
  -- what an application does to the registry depends on whether it evaluates anything
  | .apply s procedure arguments => by
    refine lawful_of_offers_eq_nil rfl fun r => ?_
    have hends :=
      ending_perform (r := r) (Machine.sealsIf_apply s.config s.limit procedure arguments) s
    exact ⟨hends.1, hends.2.trans (or_congr_right ⟨.apply, fun | .apply h => h⟩)⟩
  | .run s source file => by
    refine lawful_of_offers_eq_nil rfl fun r => ?_
    have hends := ending_run (r := r) s source file
    exact ⟨hends.1, hends.2.trans (or_congr_right
      ⟨fun ⟨_, _, h⟩ => .run h, fun | .run h => ⟨_, _, h⟩⟩)⟩
  | .start limit config prelude => by
    refine lawful_of_offers_eq_nil rfl fun r => ?_
    have hstart := perform_start r limit config prelude
    refine ⟨hstart.1, hstart.2.trans (or_congr_right ⟨?_, fun | .prelude => rfl⟩)⟩
    rintro rfl
    exact .prelude
  | .within uses result => lawful_within (lawful_all uses) result

theorem Use.lawful_all : (uses : List Use) → ∀ use ∈ uses, use.Lawful
  | [] => nofun
  | use :: uses => List.forall_mem_cons.2 ⟨lawful use, lawful_all uses⟩

end

/-- No use makes a tag occur twice. -/
theorem nodup_tags_perform (h : r.tags.Nodup) (use : Use) : (use.perform r).2.tags.Nodup := by
  have hall := nodup_tags_registerAll h use.offers
  rw [tags_eq, (registerAll_spec r use.offers).1] at hall
  rw [tags_eq, use.lawful.entries]
  exact hall

/-! ### Many uses -/

/-- **A sealed registry is left as it is by all uses.** -/
theorem after_of_isSealed (h : r.isSealed = true) (uses : List Use) : r.after uses = r :=
  after_of_lawful (Use.lawful_all uses) h

theorem entries_after (r : Registry SpecialForm) (uses : List Use) :
    (r.after uses).handlers.entries = r.handlers.entries ++ r.registrations uses := by
  induction uses generalizing r with
  | nil =>
    rw [after, registrations, List.append_nil]
  | cons use uses ih =>
    rw [after, ih, use.lawful.entries, registrations, List.append_assoc]

theorem isSealed_after_iff (r : Registry SpecialForm) (uses : List Use) :
    (r.after uses).isSealed = true ↔ r.isSealed = true ∨ ∃ use ∈ uses, use.Closes := by
  induction uses generalizing r with
  | nil =>
    rw [after]
    exact (or_iff_left nofun).symm
  | cons use uses ih =>
    rw [after, ih, use.lawful.isSealed_iff, List.exists_mem_cons_iff, or_assoc]

theorem nodup_tags_after (h : r.tags.Nodup) (uses : List Use) : (r.after uses).tags.Nodup := by
  induction uses generalizing r with
  | nil => rwa [after]
  | cons use uses ih =>
    rw [after]
    exact ih (nodup_tags_perform h use)

/-! ### The law of the table -/

/-- The registry is an append-only table: the pairs of the log were registered, and `closed` says
whether anything has sealed it. -/
structure AppendOnly (r : Registry SpecialForm) (log : List (String × SpecialForm))
    (closed : Prop) : Prop where
  /-- The tags are listed in the order in which they were registered. -/
  tags_eq : r.tags = log.map Prod.fst
  nodup_tags : r.tags.Nodup
  /-- A tag has the form of the only registration of it that succeeded. -/
  get?_eq_some_iff : ∀ tag form, r.get? tag = some form ↔ (tag, form) ∈ log
  isSealed_iff : r.isSealed = true ↔ closed
  /-- A new tag is added at the end. -/
  register_new : ¬ closed → ∀ tag form, tag ∉ r.tags → ∃ t,
    (Use.register tag form).perform r = (.ok (), t)
      ∧ t.handlers.entries = r.handlers.entries ++ [(tag, form)] ∧ t.isSealed = false
  /-- A tag that is there is refused, and nothing changes. -/
  register_duplicate : ¬ closed → ∀ tag form, tag ∈ r.tags →
    (Use.register tag form).perform r = (.error (.usage (.duplicateForm tag)), r)
  /-- When the core forms are refused, those before the first tag that is there have been added. -/
  install_refused : ¬ closed → ∀ failure t, Use.install.perform r = (.error failure, t) →
    ∃ before tag form later, SpecialForm.core = before ++ (tag, form) :: later
      ∧ failure = .usage (.duplicateForm tag) ∧ tag ∈ r.tags ∧ (∀ p ∈ before, p.1 ∉ r.tags)
      ∧ t.handlers.entries = r.handlers.entries ++ before ∧ t.isSealed = false
  /-- Once it is sealed, every registration is refused, of the tags that are there too. -/
  register_closed : closed → ∀ tag form,
    (Use.register tag form).perform r = (.error (.usage (.registrySealed tag)), r)
  /-- Once it is sealed, nothing changes it. -/
  frozen : closed → ∀ later, r.after later = r

theorem perform_register_eq_ok {t : Registry SpecialForm} {tag : String} {form : SpecialForm}
    (h : r.register tag form = .ok t) : (Use.register tag form).perform r = (.ok (), t) := by
  rw [Use.perform, h]

theorem perform_register_eq_error {fault : UsageFault} {tag : String} {form : SpecialForm}
    (h : r.register tag form = .error fault) :
    (Use.register tag form).perform r = (.error (.usage fault), r) := by
  rw [Use.perform, h]

theorem install_refused_of_open (hopen : r.isSealed = false) {failure : Failure}
    {t : Registry SpecialForm} (h : Use.install.perform r = (.error failure, t)) :
    ∃ before tag form later, SpecialForm.core = before ++ (tag, form) :: later
      ∧ failure = .usage (.duplicateForm tag) ∧ tag ∈ r.tags ∧ (∀ p ∈ before, p.1 ∉ r.tags)
      ∧ t.handlers.entries = r.handlers.entries ++ before ∧ t.isSealed = false := by
  rw [Use.perform] at h
  have hspec := registerAll_spec r SpecialForm.core
  rcases hall : r.registerAll SpecialForm.core with ⟨_ | fault, u⟩
  · rw [hall] at h
    cases h
  · rw [hall] at h hspec
    cases h
    -- the core forms have different tags, so what refuses one of them was there before
    have hnodup : (SpecialForm.core.map Prod.fst).Nodup := by decide
    obtain ⟨before, tag, form, later, hcore, rfl, htag, hbefore, hentries⟩ :=
      registerAll_eq_refused hopen hnodup hall
    exact ⟨before, tag, form, later, hcore, rfl, htag, hbefore, hentries, hspec.2.trans hopen⟩

/-- A registry whose tags differ follows the law. -/
theorem appendOnly_of_nodup (h : r.tags.Nodup) :
    r.AppendOnly r.handlers.entries (r.isSealed = true) where
  tags_eq := rfl
  nodup_tags := h
  -- with no tag twice, an entry of the table is the one that is found
  get?_eq_some_iff _ _ := ⟨Table.mem_entries_of_get?, Table.get?_of_mem_entries h⟩
  isSealed_iff := Iff.rfl
  register_new hopen tag form htag := by
    have hregister := register_of_open (Bool.eq_false_of_not_eq_true hopen) tag form
    rw [if_neg htag] at hregister
    obtain ⟨-, -, hstill, hentries⟩ := of_register_eq_ok hregister
    exact ⟨_, perform_register_eq_ok hregister, hentries, hstill⟩
  register_duplicate hopen tag form htag := by
    have hregister := register_of_open (Bool.eq_false_of_not_eq_true hopen) tag form
    rw [if_pos htag] at hregister
    exact perform_register_eq_error hregister
  install_refused hopen _ _ := install_refused_of_open (Bool.eq_false_of_not_eq_true hopen)
  register_closed hclosed tag form :=
    perform_register_eq_error (register_of_isSealed hclosed tag form)
  frozen hclosed := after_of_isSealed hclosed

/-- **The registry is an append-only table that the first evaluation freezes.** After any uses of a
new registry its tags are those of the registrations that succeeded, in their order and each with
the form of its only registration, whatever failed; and it is sealed just if one of the uses sealed
it. -/
theorem appendOnly (uses : List Use) :
    (after ∅ uses).AppendOnly (registrations ∅ uses) (∃ use ∈ uses, use.Closes) := by
  have hlaw := appendOnly_of_nodup (nodup_tags_after (r := ∅) List.nodup_nil uses)
  have hlog : (after ∅ uses).handlers.entries = registrations ∅ uses := entries_after ∅ uses
  have hclosed : (after ∅ uses).isSealed = true ↔ ∃ use ∈ uses, use.Closes :=
    (isSealed_after_iff ∅ uses).trans (or_iff_right nofun)
  rwa [hlog, propext hclosed] at hlaw

/-- One tag is registered by hand, which is where the core forms are then refused. A runtime that
loads the prelude ends all of that, and so does an evaluation: the form that a handler would
register while it runs is refused. -/
theorem appendOnly_by_hand :
    (∃ t, (Use.register "begin" .sequence).perform (after ∅ [.register "if" .conditional, .install])
        = (.ok (), t) ∧ t.tags = ["if", "quote", "set!", "define", "begin"])
    ∧ (Use.register "define" .lambda).perform (after ∅ [.register "if" .conditional, .install])
        = (.error (.usage (.duplicateForm "define")),
            after ∅ [.register "if" .conditional, .install])
    ∧ (Use.register "if" .lambda).perform
          (after ∅ [.register "if" .conditional, .install,
            .start nestingLimit ⟨Derived.all, false⟩ true])
        = (.error (.usage (.registrySealed "if")),
            after ∅ [.register "if" .conditional, .install,
              .start nestingLimit ⟨Derived.all, false⟩ true])
    ∧ (after ∅ [.register "if" .conditional, .install,
          .start nestingLimit ⟨Derived.all, false⟩ true]).after
          [.install, .close]
        = after ∅ [.register "if" .conditional, .install,
            .start nestingLimit ⟨Derived.all, false⟩ true]
    ∧ (after ∅ [.register "if" .conditional,
        .within [.register "unless" (.host .skipping)] (.ok ())]).tags = ["if"] := by
  have hopen := appendOnly [.register "if" .conditional, .install]
  have hnone : ¬ ∃ use ∈ [Use.register "if" .conditional, .install], use.Closes := by
    rintro ⟨use, hmem, hcloses⟩
    rcases List.mem_pair.1 hmem with rfl | rfl <;> cases hcloses
  have htags : (after ∅ [.register "if" .conditional, .install]).tags
      = ["if", "quote", "set!", "define"] := by decide
  have hclosed := appendOnly
    [.register "if" .conditional, .install, .start nestingLimit ⟨Derived.all, false⟩ true]
  have hsome : ∃ use ∈ [Use.register "if" .conditional, .install,
      .start nestingLimit ⟨Derived.all, false⟩ true], use.Closes :=
    ⟨.start nestingLimit ⟨Derived.all, false⟩ true, by simp, .prelude⟩
  obtain ⟨t, hregister, hentries, -⟩ := hopen.register_new hnone "begin" .sequence
    (htags ▸ by decide)
  refine ⟨⟨t, hregister, ?_⟩, hopen.register_duplicate hnone "define" .lambda (htags ▸ by decide),
    hclosed.register_closed hsome "if" .lambda, hclosed.frozen hsome [.install, .close], ?_⟩
  · rw [tags_eq, hentries, List.map_append, ← tags_eq, htags]
    rfl
  · rw [(appendOnly _).tags_eq]
    decide

end Registry

end SmallLisp
