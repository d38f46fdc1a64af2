import SmallLisp.Proofs.Relabelling.Machine
import SmallLisp.Proofs.Session.Invariant

/-!
# Every object has received its number

The numbers of the objects in a store are numbers that were given out (`State.Numbered`), and runs
keep it so. This is a fact about every step of a run, but it needs no walk of its own: change all
numbers that a run does not give out, and the run stays what it was; so it leaves nothing in the
store that has such a number (`State.Numbered.final`).

So the states of sessions are numbered, from the start on (`Session.numbered_startAt`) and after
every run (`Session.numbered_run`).
-/

namespace SmallLisp

namespace Relabelling

/-- The relabelling takes all numbers from `next` on to those that are `offset` higher. -/
def ShiftsFrom (φ : Relabelling) (offset next : Identity) : Prop :=
  ∀ limit, φ.Shifts offset next limit

theorem ShiftsFrom.object {φ : Relabelling} {offset next i : Identity}
    (h : φ.ShiftsFrom offset next)
    (hi : next ≤ i) : φ.object i = i + offset :=
  (h (i + 1) i hi (Nat.lt_succ_self i)).1

theorem ShiftsFrom.mono {φ : Relabelling} {offset next next' : Identity}
    (h : φ.ShiftsFrom offset next) (hnext : next ≤ next') : φ.ShiftsFrom offset next' :=
  fun limit => (h limit).mono hnext (Nat.le_refl limit)

theorem shiftsFrom_refl : refl.ShiftsFrom 0 0 :=
  fun _ _ _ _ => ⟨rfl, fun _ => rfl⟩

/-- The relabelling with all numbers from a bound on taken higher by some. -/
def raise (φ : Relabelling) {offset next bound : Identity} (h : φ.ShiftsFrom offset next)
    (hbound : next ≤ bound) (more : Identity) : Relabelling where
  object i := if i < bound then φ.object i else φ.object i + more
  name := φ.name
  injective := by
    -- a number below the bound goes nowhere where one above it goes
    have hapart : ∀ i j, i < bound → bound ≤ j → φ.object i ≠ φ.object j + more := by
      intro i j hi hj heq
      have hj' : next ≤ j := Nat.le_trans hbound hj
      have hshift : φ.object j + more = φ.object (j + more) := by
        rw [h.object hj', h.object (Nat.le_add_right_of_le hj'), Nat.add_right_comm]
      have hsame : i = j + more := φ.injective (heq.trans hshift)
      exact Nat.not_lt_of_le (Nat.le_add_right_of_le hj) (hsame ▸ hi)
    intro i j hij
    dsimp only at hij
    by_cases hi : i < bound
    · by_cases hj : j < bound
      · rw [if_pos hi, if_pos hj] at hij
        exact φ.injective hij
      · rw [if_pos hi, if_neg hj] at hij
        exact absurd hij (hapart i j hi (Nat.le_of_not_lt hj))
    · by_cases hj : j < bound
      · rw [if_neg hi, if_pos hj] at hij
        exact absurd hij.symm (hapart j i hj (Nat.le_of_not_lt hi))
      · rw [if_neg hi, if_neg hj] at hij
        exact φ.injective (Nat.add_right_cancel hij)

theorem raise_object_of_lt {φ : Relabelling} {offset next bound i : Identity}
    (h : φ.ShiftsFrom offset next) (hbound : next ≤ bound) (more : Identity) (hi : i < bound) :
    (φ.raise h hbound more).object i = φ.object i :=
  if_pos hi

theorem raise_object_of_le {φ : Relabelling} {offset next bound i : Identity}
    (h : φ.ShiftsFrom offset next) (hbound : next ≤ bound) (more : Identity) (hi : bound ≤ i) :
    (φ.raise h hbound more).object i = φ.object i + more :=
  if_neg (Nat.not_lt_of_le hi)

/-- From the bound on everything is shifted by that much more. -/
theorem shiftsFrom_raise {φ : Relabelling} {offset next bound : Identity}
    (h : φ.ShiftsFrom offset next) (hbound : next ≤ bound) (more : Identity) :
    (φ.raise h hbound more).ShiftsFrom (offset + more) bound := by
  intro limit i hi _
  have hi' : next ≤ i := Nat.le_trans hbound hi
  refine ⟨?_, (h (i + 1) i hi' (Nat.lt_succ_self i)).2⟩
  rw [raise_object_of_le h hbound more hi, h.object hi', Nat.add_assoc]

/-- The numbers from a limit on made higher. -/
def above (limit : Identity) : Relabelling :=
  refl.raise shiftsFrom_refl (Nat.zero_le limit) 1

variable {limit : Identity}

theorem object_above {i : Identity} (h : i < limit) : (above limit).object i = i :=
  raise_object_of_lt shiftsFrom_refl (Nat.zero_le limit) 1 h

theorem shifts_above (start limit : Identity) : (above limit).Shifts 0 start limit :=
  fun _ _ hi => ⟨object_above hi, fun _ => rfl⟩

/-- What has numbers below the limit only stays the same. -/
theorem agreeOn_above {identities : List Identity} (h : ∀ i ∈ identities, i < limit) :
    (above limit).AgreeOn .refl identities :=
  fun i hi => ⟨object_above (h i hi), rfl⟩

end Relabelling

theorem Value.relabel_above {limit : Identity} {v : Value} (h : ∀ i ∈ v.identities, i < limit) :
    v.relabel (.above limit) = v := by
  rw [relabel_congr v (Relabelling.agreeOn_above h), relabel_refl]

/-- The same run twice, where the numbers that it does not give out are changed. -/
def Twinning.above (start limit : Identity) : Twinning where
  toRelabelling := .above limit
  start := start
  offset := 0
  limit := limit
  shifts := Relabelling.shifts_above start limit
  places _ := false
  refusal := .exhausted

open Eval

/-- **A run that is its own twin keeps everything numbered.** -/
theorem State.Numbered.final {s : State} (hs : s.Numbered) {α : Type} {x : Eval α}
    {f : Relabelling → α → α}
    (hx : ∀ limit, s.nextIdentity ≤ limit →
      (Twinning.above s.nextIdentity limit).Twins (f (.above limit)) x x) :
    (x.finalState s).Numbered := by
  let next := (x.finalState s).nextIdentity
  have hle : s.nextIdentity ≤ next := (hx _ (Nat.le_refl _) s).le
  let T := Twinning.above s.nextIdentity next
  -- to begin with, the store has none of the numbers that are changed
  have hstore : s.store.relabel (.above next) = s.store := by
    rw [Store.relabel_congr fun v hv => Relabelling.agreeOn_above fun i hi =>
      Nat.lt_of_lt_of_le (hs v hv i hi) hle, Store.relabel_refl]
  have hmirrors : T.Mirrors s s := ⟨⟨hstore.symm, rfl, rfl⟩, fun _ _ => rfl, rfl⟩
  have hagree := (hx next hle s).agree s (Nat.le_refl _) hmirrors (Nat.le_refl _)
  -- both runs are the one run, so what it leaves is the same relabelled
  have hfinal : T.Mirrors (x.finalState s) (x.finalState s) := by
    rcases hagree.finalState with ⟨_, _, -, -, place, hplace⟩ | hfinal
    · cases hplace
    · exact hfinal
  intro v hv i hi
  have hsame : (Relabelling.above next).object i = i :=
    Store.object_eq_of_relabel_eq hfinal.store.symm hv i hi
  -- a number that was not given out would have been changed
  by_contra hnot
  have hraised : (Relabelling.above next).object i = i + 1 :=
    Relabelling.raise_object_of_le _ _ 1 (Nat.le_of_not_lt hnot)
  exact Nat.succ_ne_self i (hraised.symm.trans hsame)

variable {s : State}

/-- No number is given out twice. -/
theorem Machine.le_nextIdentity_evaluateFresh (config : Config) (levels : Nat) (env : Env)
    (e : Value) (s : State) :
    s.nextIdentity ≤ (((machine config levels).evaluateFresh env e).finalState s).nextIdentity := by
  let T := Twinning.above 0 0
  have hplaces : ∀ place, T.places place = false := fun _ => rfl
  have htwins := T.twins_evaluateFresh config levels env e s
  rw [Machine.concealing_of_no_places hplaces] at htwins
  exact htwins.le

theorem Machine.le_nextIdentity_apply (config : Config) (levels : Nat) (procedure : Value)
    (arguments : List Value) (s : State) : s.nextIdentity
      ≤ (((machine config levels).apply procedure arguments).finalState s).nextIdentity := by
  let T := Twinning.above 0 0
  have hplaces : ∀ place, T.places place = false := fun _ => rfl
  have htwins := (T.machines config levels).apply procedure arguments s
  rw [Machine.concealing_of_no_places hplaces] at htwins
  exact htwins.le

/-- Evaluations keep everything numbered, however they end. -/
theorem State.Numbered.evaluateFresh (hs : s.Numbered) (config : Config) (levels : Nat)
    (env : Env) {e : Value} (he : ∀ i ∈ e.identities, i < s.nextIdentity) :
    (((machine config levels).evaluateFresh env e).finalState s).Numbered := by
  refine hs.final (f := Value.relabel) fun limit hlimit => ?_
  let T := Twinning.above s.nextIdentity limit
  have hplaces : ∀ place, T.places place = false := fun _ => rfl
  have htwins := T.twins_evaluateFresh config levels env e
  have hsame : e.relabel T.toRelabelling = e :=
    Value.relabel_above fun i hi => Nat.lt_of_lt_of_le (he i hi) hlimit
  rw [hsame, Machine.concealing_of_no_places hplaces] at htwins
  exact htwins

/-! ### Sessions -/

namespace Session

theorem program_cons (m : Machine) (env : Env) (last : Option Value) (e : Value)
    (es : List Value) :
    program m env last (e :: es)
      = m.evaluateFresh env e >>= fun v => program m env (some v) es :=
  (bind_assoc _ _ _).symm

/-- Programs keep everything numbered, however they end. -/
theorem numbered_program (hs : s.Numbered) {es : List Value}
    (hes : ∀ e ∈ es, ∀ i ∈ e.identities, i < s.nextIdentity) (config : Config) (levels : Nat)
    (env : Env) (last : Option Value) :
    ((program (SmallLisp.machine config levels) env last es).finalState s).Numbered := by
  induction es generalizing s last with
  | nil => exact hs
  | cons e es ih =>
    obtain ⟨he, hrest⟩ := List.forall_mem_cons.1 hes
    let x := (SmallLisp.machine config levels).evaluateFresh env e
    have hnumbered : (x.finalState s).Numbered := hs.evaluateFresh config levels env he
    -- the expressions that are left have numbers below what is next by then
    have hle : s.nextIdentity ≤ (x.finalState s).nextIdentity :=
      Machine.le_nextIdentity_evaluateFresh config levels env e s
    rw [program_cons]
    cases hx : x s with
    | ok v t =>
      rw [finalState_of_ok hx] at hnumbered hle
      rw [finalState, bind_of_ok hx]
      exact ih hnumbered (fun e he i hi => Nat.lt_of_lt_of_le (hrest e he i hi) hle) (some v)
    | error failure t =>
      rw [finalState_of_error hx] at hnumbered
      rw [finalState_of_error (bind_of_error hx _)]
      exact hnumbered

mutual

/-- What is read from text has not settled. -/
theorem identities_of_datum {tokens : List Source.Token} {v : Value} :
    Source.Datum tokens v → v.identities = []
  | .string => rfl
  | .atom hatom => by cases hatom <;> rfl
  | .quoted hdatum => by
    simp [Value.ofList, Value.identities, Value.identitiesIn, identities_of_datum hdatum]
  | .list hdata => identities_of_data hdata

theorem identities_of_data {tokens : List Source.Token} {vs : List Value} :
    Source.Data tokens vs → Value.identitiesIn vs = []
  | .nil => rfl
  | .cons hfirst hrest => by
    rw [Value.identitiesIn, identities_of_datum hfirst, identities_of_data hrest, List.nil_append]

end

theorem identities_of_read {source : String} {file : Option String} {es : List Value}
    (h : Source.read source file = .ok es) : ∀ e ∈ es, e.identities = [] := by
  have hnone := identities_of_data (Source.data_of_read h)
  rw [Value.identitiesIn_eq_flatMap] at hnone
  exact List.flatMap_eq_nil_iff.1 hnone

/-- **Every run of a text keeps everything numbered**, whether it fails or not. -/
theorem numbered_run {s : Session} (hs : s.state.Numbered) (source : String)
    (file : Option String) : (s.run source file).2.state.Numbered := by
  rw [run]
  split
  · exact hs
  · next es hread =>
    rw [state_perform]
    refine numbered_program hs (fun e he i hi => ?_) s.config s.limit s.global none
    rw [identities_of_read hread e he] at hi
    cases hi

/-- The global environment is made of numbered objects. -/
theorem numbered_globalEnvironment (registry : Registry SpecialForm) :
    (globalEnvironment.finalState (State.initial registry)).Numbered := by
  -- the store is empty at first
  have hinitial : (State.initial registry).Numbered := by
    rintro v ⟨f, hf, -⟩
    exact absurd hf (Array.not_mem_empty f)
  refine hinitial.final (f := fun _ => id) fun limit _ => ?_
  -- a run that has a twin numbers what it makes one after the other
  let T := Twinning.above (State.initial registry).nextIdentity limit
  have hprimitives :=
    T.twins_settleAll (Operation.all.map fun op => .primitive (.operation op) none)
  rw [List.map_map] at hprimitives
  refine hprimitives.bind fun primitives => ?_
  refine (T.twins_extend [] (Operation.all.map Operation.name) primitives).bind fun global => ?_
  refine (T.twins_define global "true" (.boolean true)).bind fun _ => ?_
  exact (T.twins_define global "false" (.boolean false)).bind fun _ => T.twins_pure id global

/-- **Sessions start with everything numbered.** -/
theorem numbered_startAt {limit : Nat} {registry : Registry SpecialForm} {tracing prelude : Bool}
    {s : Session} (h : startAt limit registry tracing prelude = .ok s) : s.state.Numbered := by
  refine of_startAt (P := fun s => s.state.Numbered) (fun b hb => ?_)
    (fun _ source file hb => numbered_run hb source file) h
  have hglobal := numbered_globalEnvironment registry
  rw [finalState] at hglobal
  rw [bareAt] at hb
  split at hb
  · next heq =>
    rw [heq] at hglobal
    cases hb
    exact hglobal
  · cases hb

end Session

end SmallLisp
