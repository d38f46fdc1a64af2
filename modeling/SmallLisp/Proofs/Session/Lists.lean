import SmallLisp.Proofs.Prelude.Lists

/-!
# The list procedures of a session

A session that starts with the prelude has the procedures of which `Proofs.Prelude.Lists` speaks:
its global names are bound to procedures with these texts (`exists_start_lists`), and evaluation
finds them there from every state that leaves the frames of the session as they were.

What the procedures return is said without a word about the judgements by which it is shown
(`Gives`), and so is what is asked of the procedure that `map` applies (`Determines`). That `map`
applies it once to each element in order is read off the forest of the application, which is that of
a run with a trace; a trace makes no difference to the run.
-/

namespace SmallLisp

open Machine

namespace Session

/-! ### What a session binds -/

/-- Whether the global name is bound to the procedure of an operation. -/
def offers (s : Session) (op : Operation) : Bool :=
  match s.state.store.find s.global op.name with
  | some (.primitive (.operation other) _) => other == op
  | _ => false

/-- Whether the global name is bound to a procedure with this text. -/
def defines (s : Session) (name : String) (parameters : List String) (body : List Value) : Bool :=
  match s.state.store.find s.global name with
  | some (.compound (some own) names es env _) =>
    own == name && names == parameters && Value.allAlike es body && env == s.global
  | _ => false

/-- Whether the list procedures of the prelude are there, with what they rely on. -/
def hasLists (s : Session) : Bool :=
  s.config.derived == Derived.all && Prelude.operations.all s.offers
    && s.defines "append" ["a", "b"] [Prelude.appendBody]
    && s.defines "reverse" ["items"] Prelude.reverseBody
    && s.defines "map" ["f", "items"] [Prelude.mapBody]

variable {s : Session} {name : String} {parameters : List String} {body : List Value}

theorem hasLists_iff : s.hasLists = true ↔ s.config.derived = Derived.all ∧
    (∀ op ∈ Prelude.operations, s.offers op = true) ∧
    s.defines "append" ["a", "b"] [Prelude.appendBody] = true ∧
    s.defines "reverse" ["items"] Prelude.reverseBody = true ∧
    s.defines "map" ["f", "items"] [Prelude.mapBody] = true := by
  simp only [hasLists, Bool.and_eq_true, List.all_eq_true, beq_iff_eq, and_assoc]

theorem find_of_offers {op : Operation} (h : s.offers op = true) :
    ∃ self, s.state.store.find s.global op.name = some (.primitive (.operation op) self) := by
  unfold offers at h
  split at h
  · next other self hfind =>
    obtain rfl := beq_iff_eq.1 h
    exact ⟨self, hfind⟩
  · cases h

theorem find_of_defines (h : s.defines name parameters body = true)
    (hbody : Value.allSkeletons body = true) : ∃ es self, es.map Value.plain = body ∧
      s.state.store.find s.global name
        = some (.compound (some name) parameters es s.global self) := by
  unfold defines at h
  split at h
  · next own names es env self hfind =>
    simp only [Bool.and_eq_true, beq_iff_eq] at h
    -- the test compares the body up to identities, and the skeleton has none
    obtain ⟨⟨⟨rfl, rfl⟩, halike⟩, rfl⟩ := h
    refine ⟨es, self, ?_, hfind⟩
    rw [← Value.plainAll_eq_map]
    exact Value.plainAll_eq_of_allAlike hbody halike
  · cases h

/-- The text may be one expression. -/
theorem find_of_defines_one {e : Value} (h : s.defines name parameters [e] = true)
    (he : Value.allSkeletons [e] = true) : ∃ e' self, e'.plain = e ∧
      s.state.store.find s.global name
        = some (.compound (some name) parameters [e'] s.global self) := by
  obtain ⟨_, self, hes, hfind⟩ := find_of_defines h he
  obtain ⟨e', _, rfl, hplain, hnil⟩ := List.map_eq_cons_iff.1 hes
  obtain rfl := List.map_eq_nil_iff.1 hnil
  exact ⟨e', self, hplain, hfind⟩

set_option maxRecDepth 4000 in
/-- **A session with the prelude has the list procedures.** -/
theorem exists_start_lists (tracing : Bool) :
    ∃ s, start SpecialForm.registry tracing true = .ok s ∧ s.Sound ∧ s.hasLists = true := by
  -- as for every session that starts with the prelude, the kernel is given the characters
  refine exists_startAt_of_runsTo String.toList_ofList fun b hb => ?_
  cases tracing <;> cases hb <;> decide +kernel

/-! ### What they return -/

/-- Given enough levels, the application returns a list of these values. It writes nothing and
leaves every frame that there was as it was. -/
def Gives (s : Session) (procedure : Value) (arguments vs : List Value) : Prop :=
  ∃ least self t, s.state.Extends t ∧ ∀ levels ≥ least,
    (SmallLisp.machine s.config levels).apply procedure arguments s.state = .ok (.list vs self) t

/-- Applied to the value, whatever was evaluated before that left the frames of the session as they
were, the procedure returns a settled value of which `R` holds. It writes nothing and leaves every
frame that there was as it was. -/
def Determines (s : Session) (procedure x : Value) (R : Value → Prop) : Prop :=
  ∀ t, s.state.Extends t → ∃ levels v u,
    (SmallLisp.machine s.config levels).apply procedure [x] t = .ok v u ∧
      (R v ∧ v.isSettled = true) ∧ u.outputs = t.outputs ∧
      ∀ id < t.store.frames.size, u.store.frame id = t.store.frame id

variable {config : Config} {procedure x : Value} {arguments : List Value}

theorem exists_gives {R : List Value → Prop} {forests : Language CallTree}
    (h : Applies s.config s.state procedure arguments (Value.IsListOf R) forests) :
    ∃ vs, R vs ∧ s.Gives procedure arguments vs := by
  obtain ⟨_, t, ⟨hextends, vs, self, rfl, hvs⟩, least, hruns⟩ := h s.state (.refl s.state)
  exact ⟨vs, hvs, least, self, t, hextends, fun levels hlevels => (hruns levels hlevels).1⟩

theorem exists_starts_of_applies {Q : Value → Prop} {forests : Language CallTree}
    (htracing : config.tracing = true)
    (h : Applies config s.state procedure arguments Q forests) :
    ∃ least, ∀ levels ≥ least, ∃ calls ∈ forests,
      Starts config levels (·.apply procedure arguments) s.state calls := by
  obtain ⟨_, _, -, least, hruns⟩ := h s.state (.refl s.state)
  exact ⟨least, fun levels hlevels => (hruns levels hlevels).2 htracing⟩

/-- What is determined without a trace is determined with one, and the other way round. -/
theorem Determines.applies {R : Value → Prop} (h : s.Determines procedure x R)
    (hprocedure : procedure.isProcedure = true) (hderived : config.derived = s.config.derived) :
    Applies config s.state procedure [x] (fun v => R v ∧ v.isSettled = true)
      (above procedure [x] ⊤) := by
  refine applies_of_returns hprocedure fun t hst => ?_
  obtain ⟨levels, v, u, hrun, hv, houtputs, hframe⟩ := h t hst
  have hmachines :=
    (Comparison.untraced False s.config config).machines_machine hderived.symm levels
  have hsame := (hmachines.apply procedure [x] t t rfl).resolve_left fun hcut => hcut.1
  rw [hrun] at hsame
  cases hother : (SmallLisp.machine config levels).apply procedure [x] t with
  | ok w u' =>
    rw [hother] at hsame
    obtain ⟨rfl, huntraced⟩ := EStateM.Result.ok.inj hsame
    -- the other run ends in a state that is the same but for its trace
    have hextends : t.Extends u' :=
      (extends_of_apply hrun houtputs hframe).trans (.of_untraced huntraced.symm)
    exact ⟨levels, v, u', hother, hv, hextends.outputs, hextends.frame⟩
  | error failure u' =>
    rw [hother] at hsame
    cases hsame

/-- An operation that has a settled result determines it. -/
theorem determines_operation {op : Operation} {v : Value}
    (hperform : op.perform [x] = .ok (.value v)) (hsettled : v.isSettled = true)
    (self : Option Identity) : s.Determines (.primitive (.operation op) self) x fun w =>
      op.perform [x] = .ok (.value w) := by
  have happlies : Applies s.config s.state (.primitive (.operation op) self) [x] (· = v) _ :=
    applies_operation hperform fun next => by rw [Value.settle_of_isSettled hsettled]
  intro t hst
  obtain ⟨_, u, ⟨hextends, rfl⟩, least, hruns⟩ := happlies t hst
  obtain ⟨hrun, -⟩ := hruns least (Nat.le_refl least)
  exact ⟨least, _, u, hrun, ⟨hperform, hsettled⟩, hextends.outputs, hextends.frame⟩

/-! ### The procedures of the prelude -/

theorem Sound.sees (h : s.Sound) {v : Value} (hfind : s.state.store.find s.global name = some v) :
    s.state.Sees s.global name v where
  find := hfind
  exist := by
    obtain ⟨id, hid, hglobal⟩ := h.global
    rw [hglobal]
    exact List.forall_mem_singleton.2 hid

theorem lookup_of_find {v : Value} (h : s.state.store.find s.global name = some v) :
    s.lookup name = .ok v := by
  rw [lookup, Store.lookup_of_find h]
  rfl

theorem Sound.serves (h : s.Sound) (hoffers : ∀ op ∈ Prelude.operations, s.offers op = true)
    (hderived : config.derived = Derived.all) : Prelude.Serves config s.state s.global where
  derived := hderived
  handlers := h.forms
  operation op hop := by
    obtain ⟨self, hfind⟩ := find_of_offers (hoffers op hop)
    exact ⟨self, h.sees hfind⟩

/-- **The list procedures of the prelude.** In a session that has just started with the prelude,
`append` and `reverse` return what they are named for, whatever settled values the lists consist of,
and so does `map` with a procedure that determines its results, by a relation that need not be a
function, since new objects have identities of their own. Given enough levels, all of them return;
they write nothing and leave every frame that there was as it was. What `map` starts, and a trace
records, is one application of the procedure to each element, from first to last, among applications
of `map` itself and of operations on lists. -/
theorem exists_list_procedures (tracing : Bool) : ∃ s append reverse map,
    start SpecialForm.registry tracing true = .ok s ∧
    s.lookup "append" = .ok append ∧ s.lookup "reverse" = .ok reverse ∧ s.lookup "map" = .ok map ∧
    (∀ xs ys i j, (∀ x ∈ xs, x.isSettled = true) → (∀ y ∈ ys, y.isSettled = true) →
      s.Gives append [.list xs i, .list ys j] (xs ++ ys)) ∧
    (∀ xs i, (∀ x ∈ xs, x.isSettled = true) → s.Gives reverse [.list xs i] xs.reverse) ∧
    ∀ f xs i (R : Value → Value → Prop), f.isProcedure = true → (∀ x ∈ xs, x.isSettled = true) →
      (∀ x ∈ xs, s.Determines f x (R x)) →
        (∃ vs, List.Forall₂ R xs vs ∧ s.Gives map [f, .list xs i] vs) ∧
        ∃ least, ∀ levels ≥ least, ∃ tree, Prelude.MapsOver map f xs tree ∧
          Starts { s.config with tracing := true } levels (·.apply map [f, .list xs i]) s.state
            [tree] := by
  obtain ⟨s, hstart, hsound, hlists⟩ := exists_start_lists tracing
  obtain ⟨hderived, hoffers, happend, hreverse, hmap⟩ := hasLists_iff.1 hlists
  -- the prelude has defined the three procedures, with the bodies that are known
  obtain ⟨_, _, happendBody, happend⟩ := find_of_defines_one happend rfl
  obtain ⟨_, _, hreverseBody, hreverse⟩ := find_of_defines hreverse rfl
  obtain ⟨_, _, hmapBody, hmap⟩ := find_of_defines_one hmap rfl
  have hserves : Prelude.Serves s.config s.state s.global := hsound.serves hoffers hderived
  refine ⟨s, _, _, _, hstart, lookup_of_find happend, lookup_of_find hreverse,
    lookup_of_find hmap, ?_, ?_, ?_⟩
  · intro xs ys i j hxs hys
    obtain ⟨_, rfl, hgives⟩ := exists_gives
      (Prelude.applies_append happendBody hserves (hsound.sees happend) hxs hys i j)
    exact hgives
  · intro xs i hxs
    obtain ⟨_, rfl, hgives⟩ := exists_gives
      (Prelude.applies_reverse hreverseBody hserves hxs i)
    exact hgives
  · intro f xs i R hprocedure hxs hf
    -- once as the session is configured, for the values, and once with a trace, for the forest
    have happlies : ∀ config : Config, config.derived = s.config.derived → _ :=
      fun config hconfig => Prelude.applies_map hmapBody
        (hsound.serves hoffers (hconfig.trans hderived)) rfl (hsound.sees hmap) hprocedure
        (fun _ _ hv => hv.2) hxs (fun x hx => (hf x hx).applies hprocedure hconfig) i
    obtain ⟨vs, hvs, hgives⟩ := exists_gives (happlies s.config rfl)
    refine ⟨⟨vs, hvs.imp fun _ _ hv => hv.1, hgives⟩, ?_⟩
    obtain ⟨least, hstarts⟩ := exists_starts_of_applies rfl
      (happlies { s.config with tracing := true } rfl)
    refine ⟨least, fun levels hlevels => ?_⟩
    obtain ⟨_, ⟨tree, htree, rfl⟩, htraces⟩ := hstarts levels hlevels
    exact ⟨tree, htree, htraces⟩

/-- Two lists of one string each, and the procedure that takes the first element. -/
theorem exists_list_procedures_car : ∃ s append reverse map car,
    start SpecialForm.registry false true = .ok s ∧ s.lookup "append" = .ok append ∧
    s.lookup "reverse" = .ok reverse ∧ s.lookup "map" = .ok map ∧ s.lookup "car" = .ok car ∧
    let x : Value := .list [.string "a"] (some 100)
    let y : Value := .list [.string "b"] (some 101)
    s.Gives append [.list [x, y] (some 102), .list [x] (some 103)] [x, y, x] ∧
    s.Gives reverse [.list [x, y] (some 102)] [y, x] ∧
    s.Gives map [car, .list [x, y] (some 102)] [.string "a", .string "b"] ∧
    ∃ least, ∀ levels ≥ least, ∃ tree, Prelude.MapsOver map car [x, y] tree ∧
      Starts { s.config with tracing := true } levels (·.apply map [car, .list [x, y] (some 102)])
        s.state [tree] := by
  obtain ⟨s, append, reverse, map, hstart, happend, hreverse, hmap, happends, hreverses, hmaps⟩ :=
    exists_list_procedures false
  obtain ⟨s', hstart', -, hlists⟩ := exists_start_lists false
  obtain rfl : s = s' := Except.ok.inj (hstart.symm.trans hstart')
  obtain ⟨-, hoffers, -⟩ := hasLists_iff.1 hlists
  obtain ⟨self, hcar⟩ := find_of_offers (hoffers .car (by decide))
  refine ⟨s, append, reverse, map, _, hstart, happend, hreverse, hmap, lookup_of_find hcar, ?_⟩
  intro x y
  have hsettled : ∀ z ∈ [x, y], z.isSettled = true := by simp [x, y, Value.isSettled]
  -- the primitive gives one value for each of the two lists
  have hdetermines : ∀ z ∈ [x, y], s.Determines (.primitive (.operation .car) self) z
      fun v => Operation.car.perform [z] = .ok (.value v) :=
    List.forall_mem_cons.2 ⟨determines_operation rfl rfl self,
      List.forall_mem_singleton.2 (determines_operation rfl rfl self)⟩
  obtain ⟨⟨vs, hvs, hgives⟩, hstarts⟩ := hmaps _ [x, y] (some 102)
    (fun z v => Operation.car.perform [z] = .ok (.value v)) rfl hsettled hdetermines
  obtain ⟨v, _, hv, hrest, rfl⟩ := List.forall₂_cons_left_iff.1 hvs
  obtain ⟨w, _, hw, hnil, rfl⟩ := List.forall₂_cons_left_iff.1 hrest
  obtain rfl := List.forall₂_nil_left_iff.1 hnil
  cases hv
  cases hw
  have hfirst : ∀ z ∈ [x], z.isSettled = true := List.forall_mem_singleton.2 rfl
  exact ⟨happends _ _ _ _ hsettled hfirst, hreverses _ _ hsettled, hgives, hstarts⟩

end Session

end SmallLisp
