import SmallLisp.Proofs.Run.Ensures

/-!
# Environments share their frames

Environments that extend the same one hold its frames in common, so a write through one of them is
seen by others, unless a nearer frame of theirs binds the name. `State.Family` says which
environments there are after any sequence of extensions, definitions and assignments, and
`State.Shares` what all of them see of the next operation (`State.Family.shares`):

* a definition is seen where the innermost frame of its environment is the nearest one that binds
  the name once it is defined. Before it the name may have been unbound there, or bound further out;
* an assignment is seen where the name resolves to the frame that it resolves to for the assignment;
* an extension is not seen, since the environments that are there consist of frames that are there;
* an operation that fails does nothing.

Both writes are `Store.setSlot`, and `Store.find_setSlot` says who sees it. An assignment differs
from a definition only in that it adds no name, so that no name resolves to another frame after it.
-/

namespace SmallLisp

namespace Store

variable {s t : Store} {id : FrameId} {env : Env} {name other : String} {value : Option Value}

theorem find_cons (s : Store) (id : FrameId) (env : Env) (name : String) :
    s.find (id :: env) name
      = if (s.frame id).contains name then (s.frame id).value? name else s.find env name := by
  rw [find, resolve_cons]
  split
  · rfl
  · rfl

theorem lookup_of_find_eq (h : t.find env name = s.find env name) :
    t.lookup env name = s.lookup env name := by
  rw [lookup, lookup, h]

theorem lookup_of_find {v : Value} (h : s.find env name = some v) : s.lookup env name = .ok v := by
  rw [lookup, h]

/-- What an environment sees depends on its frames only. -/
theorem find_congr (h : ∀ id ∈ env, t.frame id = s.frame id) (name : String) :
    t.find env name = s.find env name := by
  induction env with
  | nil => rfl
  | cons id env ih =>
    obtain ⟨hid, hrest⟩ := List.forall_mem_cons.1 h
    rw [find_cons, find_cons, hid, ih hrest]

/-! ### Who sees a write -/

/-- **A write is seen** where the name resolves to the frame that was written to, and
nowhere else. -/
theorem find_setSlot (h : id < s.frames.size) (env : Env) (name other : String)
    (value : Option Value) :
    (s.setSlot id name value).find env other
      = if other = name ∧ (s.setSlot id name value).resolve env name = some id then value
        else s.find env other := by
  induction env with
  | nil => simp [find]
  | cons place env ih =>
    rw [find_cons, find_cons, resolve_cons, ih]
    by_cases hplace : place = id
    · subst hplace
      rw [frame_setSlot s h, if_pos rfl, Table.contains_set, Table.contains_set, Frame.value?,
        Table.get?_set]
      -- the frame binds the name now, so it hides the frames behind it from this name only
      by_cases hother : other = name
      · simp [hother]
      · simp [hother, Frame.value?]
    · rw [frame_setSlot_of_ne s hplace]
      by_cases hother : other = name
      · subst hother
        cases (s.frame place).contains other with
        | true => simp [hplace]
        | false => simp
      · simp [hother]

/-- Only a frame that was made binds names. -/
theorem lt_size_of_contains (h : (s.frame id).contains name = true) : id < s.frames.size := by
  refine Nat.lt_of_not_le fun hle => ?_
  rw [frame_of_size_le s hle] at h
  cases h

/-- Overwriting a name that a frame binds leaves every name where it is. -/
theorem resolve_setSlot (h : (s.frame id).contains name = true) (env : Env) (other : String)
    (value : Option Value) : (s.setSlot id name value).resolve env other = s.resolve env other := by
  -- the name is bound already, so no frame binds more names than before
  have hcontains : ∀ place,
      ((s.setSlot id name value).frame place).contains other = (s.frame place).contains other := by
    intro place
    by_cases hplace : place = id
    · subst hplace
      have hsize : place < s.frames.size := lt_size_of_contains h
      rw [frame_setSlot s hsize, if_pos rfl, Table.contains_set]
      by_cases hother : other = name
      · rw [hother, h, Bool.or_true]
      · rw [beq_false_of_ne hother, Bool.false_or]
    · rw [frame_setSlot_of_ne s hplace]
  rw [resolve, resolve]
  simp only [hcontains]

end Store

/-! ### Families of environments -/

/-- In the state there are these environments: the empty one, and those that were built from it by
extensions, with any definitions and assignments through any of them in between, some of which may
have failed. -/
inductive State.Family : State → List Env → Prop where
  | start {s : State} : s.store = ∅ → Family s [[]]
  | extended {s t : State} {envs : List Env} {env inner : Env} {names : List String}
      {values : List Value} : Family s envs → env ∈ envs →
      Eval.extend env names values s = .ok inner t → Family t (inner :: envs)
  | refused {s t : State} {envs : List Env} {env : Env} {names : List String} {values : List Value}
      {failure : Failure} : Family s envs → env ∈ envs →
      Eval.extend env names values s = .error failure t → Family t envs
  | defined {s : State} {envs : List Env} {env : Env} (name : String) (v : Value) :
      Family s envs → env ∈ envs → Family ((Eval.define env name v).finalState s) envs
  | assigned {s : State} {envs : List Env} {env : Env} (name : String) (v : Value) :
      Family s envs → env ∈ envs → Family ((Eval.assign env name v).finalState s) envs

/-- What the environments of a family see of an operation through one of them. -/
structure State.Shares (s : State) (envs : List Env) (env : Env) : Prop where
  /-- A definition is seen where the innermost frame is the nearest one that binds the name. There
  is no such frame in the empty environment. -/
  define : ∀ name v, (Eval.define env name v).Ensures s
    (fun _ t => env ≠ [] ∧ ∀ other ∈ envs, ∀ n, t.store.lookup other n
      = if n = name ∧ t.store.resolve other name = env.head? then .ok v
        else s.store.lookup other n)
    fun failure t => env = [] ∧ failure = .usage (.defineInEmptyEnvironment name) ∧ t = s
  /-- An assignment is seen where the name resolves to the same frame. It has to resolve to one. -/
  assign : ∀ name v, (Eval.assign env name v).Ensures s
    (fun _ t => s.store.resolve env name ≠ none ∧ ∀ other ∈ envs, ∀ n, t.store.lookup other n
      = if n = name ∧ s.store.resolve other name = s.store.resolve env name then .ok v
        else s.store.lookup other n)
    fun failure t => s.store.resolve env name = none ∧
      failure = .eval (.unboundVariable name) ∧ t = s
  /-- An extension is not seen. There have to be as many values as names. -/
  extend : ∀ names values, (Eval.extend env names values).Ensures s
    (fun _ t => names.length = values.length ∧
      ∀ other ∈ envs, ∀ n, t.store.lookup other n = s.store.lookup other n)
    fun failure t => names.length ≠ values.length ∧
      failure = .eval (.arityMismatch (.exactly names.length) values.length) ∧ t = s

namespace Eval

variable {s : State} {env : Env}

/-! ### What the operations do -/

theorem assign_of_resolve {name : String} {id : FrameId} (h : s.store.resolve env name = some id)
    (v : Value) :
    assign env name v s = .ok () { s with store := s.store.setSlot id name (some v) } := by
  have hplace : s.store.assignable env name = .ok id := by rw [Store.assignable, h]
  show (ofExcept .eval (s.store.assignable env name) >>= fun id => setSlot id name v) s = _
  rw [hplace]
  rfl

theorem assign_of_unbound {name : String} (h : s.store.resolve env name = none) (v : Value) :
    assign env name v s = .error (.eval (.unboundVariable name)) s := by
  have hplace : s.store.assignable env name = .error (.unboundVariable name) := by
    rw [Store.assignable, h]
  show (ofExcept .eval (s.store.assignable env name) >>= fun id => setSlot id name v) s = _
  rw [hplace]
  rfl

theorem extend_of_length {names : List String} {values : List Value}
    (h : names.length = values.length) (env : Env) (s : State) :
    extend env names values s
      = .ok (s.store.frames.size :: env)
          { s with store := (s.store.push env (Frame.bind names (values.map some))).2 } := by
  have hframe : Frame.ofArguments names (values.map some)
      = .ok (Frame.bind names (values.map some)) :=
    if_pos (h.trans (List.length_map some).symm)
  rw [extend, hframe]
  rfl

theorem extend_of_length_ne {names : List String} {values : List Value}
    (h : names.length ≠ values.length) (env : Env) (s : State) :
    extend env names values s
      = .error (.eval (.arityMismatch (.exactly names.length) values.length)) s := by
  have hframe : Frame.ofArguments names (values.map some)
      = .error (.arityMismatch (.exactly names.length) values.length) := by
    rw [Frame.ofArguments, List.length_map, if_neg h]
  rw [extend, hframe]
  rfl

end Eval

namespace State.Family

open Eval

variable {s : State} {envs : List Env} {env : Env}

theorem size_finalState_define (env : Env) (name : String) (v : Value) (s : State) :
    ((define env name v).finalState s).store.frames.size = s.store.frames.size := by
  cases env with
  | nil => rfl
  | cons id env => exact Store.size_setSlot _ _ _ _

theorem size_finalState_assign (env : Env) (name : String) (v : Value) (s : State) :
    ((assign env name v).finalState s).store.frames.size = s.store.frames.size := by
  cases h : s.store.resolve env name with
  | none => rw [finalState_of_error (assign_of_unbound h v)]
  | some id =>
    rw [finalState_of_ok (assign_of_resolve h v)]
    exact Store.size_setSlot _ _ _ _

/-- **The environments of a family consist of frames that exist.** -/
theorem lt_size (h : s.Family envs) : ∀ env ∈ envs, ∀ id ∈ env, id < s.store.frames.size := by
  induction h with
  | start _ =>
    intro env henv id hid
    rw [List.mem_singleton.1 henv] at hid
    cases hid
  | @extended s t envs env inner names values _ henv hrun ih =>
    by_cases hlength : names.length = values.length
    · rw [extend_of_length hlength] at hrun
      cases hrun
      -- the store has one frame more, which only the new environment has
      have hold : ∀ other ∈ envs, ∀ id ∈ other, id < s.store.frames.size + 1 :=
        fun other hother id hid => Nat.lt_succ_of_lt (ih other hother id hid)
      simp only [Store.size_push]
      refine List.forall_mem_cons.2 ⟨?_, hold⟩
      exact List.forall_mem_cons.2 ⟨Nat.lt_succ_self _, hold env henv⟩
    · rw [extend_of_length_ne hlength] at hrun
      cases hrun
  | @refused s t envs env names values failure _ henv hrun ih =>
    -- an extension that is refused makes no frame
    by_cases hlength : names.length = values.length
    · rw [extend_of_length hlength] at hrun
      cases hrun
    · rw [extend_of_length_ne hlength] at hrun
      cases hrun
      exact ih
  | defined name v _ _ ih =>
    rw [size_finalState_define]
    exact ih
  | assigned name v _ _ ih =>
    rw [size_finalState_assign]
    exact ih

/-- A write is seen by looking up the name. -/
theorem lookup_setSlot {store : Store} {id : FrameId} (h : id < store.frames.size) (other : Env)
    (name n : String) (v : Value) :
    (store.setSlot id name (some v)).lookup other n
      = if n = name ∧ (store.setSlot id name (some v)).resolve other name = some id then .ok v
        else store.lookup other n := by
  have hfind := Store.find_setSlot h other name n (some v)
  -- the new value is seen where the name resolves to the frame that was written to
  split
  · next hseen =>
    rw [if_pos hseen] at hfind
    exact Store.lookup_of_find hfind
  · next hseen =>
    rw [if_neg hseen] at hfind
    exact Store.lookup_of_find_eq hfind

/-- **Environments share their frames.** Of a definition or an assignment through one of them, the
environments of a family see what they should by the frames to which the name resolves; nothing else
that they see changes, and nothing at all changes by an extension or by an operation that fails. -/
theorem shares (h : s.Family envs) (henv : env ∈ envs) : s.Shares envs env where
  define name v := by
    cases env with
    -- there is no frame in which to define it
    | nil => exact ⟨rfl, rfl, rfl⟩
    | cons id env =>
      have hid : id < s.store.frames.size := h.lt_size _ henv id List.mem_cons_self
      exact ⟨List.cons_ne_nil id env, fun other _ n => lookup_setSlot hid other name n v⟩
  assign name v := by
    cases hresolve : s.store.resolve env name with
    | none =>
      rw [Ensures, assign_of_unbound hresolve]
      exact ⟨rfl, rfl, rfl⟩
    | some id =>
      -- the frame binds the name already, so every name resolves as before
      have hbinds := (Store.of_resolve_eq_some hresolve).2
      rw [Ensures, assign_of_resolve hresolve]
      refine ⟨nofun, fun other _ n => ?_⟩
      rw [lookup_setSlot (Store.lt_size_of_contains hbinds), Store.resolve_setSlot hbinds]
  extend names values := by
    by_cases hlength : names.length = values.length
    · rw [Ensures, extend_of_length hlength]
      refine ⟨hlength, fun other hother n => Store.lookup_of_find_eq (Store.find_congr ?_ n)⟩
      -- the frame is new, so no environment there is has it
      intro id hid
      exact Store.frame_push s.store env _ (h.lt_size other hother id hid)
    · rw [Ensures, extend_of_length_ne hlength]
      exact ⟨hlength, rfl, rfl⟩

/-- Two environments that share a frame, one of which hides a name of it. An assignment through the
other one is seen in the shared frame, and not where the name is hidden. -/
theorem shares_siblings : ∃ s : State, s.Family [[2, 0], [1, 0], [0], []] ∧
    [1, 0] ∈ [[2, 0], [1, 0], [0], []] ∧ s.Shares [[2, 0], [1, 0], [0], []] [1, 0] ∧
    (∀ env ∈ [[1, 0], [0]], s.store.lookup env "x" = .ok (.string "a")) ∧
    s.store.lookup [2, 0] "x" = .ok (.string "c") ∧
    let t := (Eval.assign [1, 0] "x" (.string "d")).finalState s
    (∀ env ∈ [[1, 0], [0]], t.store.lookup env "x" = .ok (.string "d")) ∧
      t.store.lookup [2, 0] "x" = .ok (.string "c") := by
  have hempty : (State.initial SpecialForm.registry).Family [[]] := .start rfl
  -- the three frames bind x, y and x again
  have hshared := hempty.extended (List.mem_singleton_self [])
    (rfl : Eval.extend [] ["x"] [.string "a"] _ = .ok [0] _)
  have hplain := hshared.extended List.mem_cons_self
    (rfl : Eval.extend [0] ["y"] [.string "b"] _ = .ok [1, 0] _)
  have hfamily := hplain.extended (List.mem_cons_of_mem [1, 0] List.mem_cons_self)
    (rfl : Eval.extend [0] ["x"] [.string "c"] _ = .ok [2, 0] _)
  have hmem : [1, 0] ∈ [[2, 0], [1, 0], [0], ([] : Env)] := by decide
  refine ⟨_, hfamily, hmem, shares hfamily hmem, ?_, rfl, ?_, rfl⟩ <;>
    exact List.forall_mem_cons.2 ⟨rfl, List.forall_mem_singleton.2 rfl⟩

end State.Family

end SmallLisp
