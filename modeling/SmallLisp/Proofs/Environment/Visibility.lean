import Mathlib.Data.List.Basic
import Mathlib.Data.Prod.Basic
import SmallLisp.Environment.Store

/-!
# The visible names of an environment

`Store.allNames` collects the names of all frames of a chain and drops repetitions. What it answers
is determined by what happened to the frames (`Store.History.allNames_exact`): each frame lists its
names in the order in which it first bound them (`Store.ListsInOrder`), and of these the chain
shows, from the innermost frame outwards, the names that no nearer frame binds (`Store.unhidden`).

`Store.History` says what happened: the environments that were built, and every single time that a
frame bound a name. The order of names is carried along it by one fact about tables. A name that is
set again stays where it is, and the first time it was set stays what it was; a new name comes last,
and so does the time at which it was set (`ListsInOrder.set`).
-/

namespace SmallLisp

namespace Store

/-! ### Histories -/

/-- There are these environments in the store, and these are the times at which a frame bound a
name, from the first to the last. Environments are built by extension from the empty one, and names
are bound by extensions, definitions and assignments through any environment that there is. An
operation that fails leaves no trace. -/
inductive History : Store → List Env → List (FrameId × String) → Prop where
  | start : History ∅ [[]] []
  /-- A new frame binds the names one after the other. -/
  | extend {s t : Store} {envs : List Env} {bindings : List (FrameId × String)} {env : Env}
      {id : FrameId} {names : List String} {values : List (Option Value)} :
      History s envs bindings → env ∈ envs → s.extend env names values = .ok (id :: env, t) →
      History t ((id :: env) :: envs) (bindings ++ names.map fun name => (id, name))
  /-- The innermost frame binds the name. -/
  | define {s t : Store} {envs : List Env} {bindings : List (FrameId × String)} {id : FrameId}
      {outer : Env} {name : String} {value : Option Value} :
      History s envs bindings → id :: outer ∈ envs → s.define (id :: outer) name value = .ok t →
      History t envs (bindings ++ [(id, name)])
  /-- The frame to which the name resolves binds it again. -/
  | assign {s t : Store} {envs : List Env} {bindings : List (FrameId × String)} {env : Env}
      {id : FrameId} {name : String} {value : Option Value} :
      History s envs bindings → env ∈ envs → s.resolve env name = some id →
      s.assign env name value = .ok t → History t envs (bindings ++ [(id, name)])

/-- The names are those that the frame bound, in the order in which it first bound them. -/
structure ListsInOrder (bindings : List (FrameId × String)) (id : FrameId) (names : List String) :
    Prop where
  mem_iff : ∀ name, name ∈ names ↔ (id, name) ∈ bindings
  ordered : names.Pairwise fun a b => bindings.idxOf (id, a) < bindings.idxOf (id, b)

/-- The names that each frame of a chain binds and no frame nearer than it does, from the first
frame of the chain outwards. The frames before the chain are nearer than all of it. -/
def unhidden (s : Store) (nearer : List FrameId) : Env → List String
  | [] => []
  | id :: outer =>
    ((s.frame id).names.filter fun name => nearer.all fun n => !(s.frame n).contains name)
      ++ s.unhidden (nearer ++ [id]) outer

/-! ### The order within a frame -/

namespace ListsInOrder

variable {bindings : List (FrameId × String)} {id : FrameId} {names : List String}

theorem nodup (h : ListsInOrder bindings id names) : names.Nodup := by
  refine h.ordered.imp fun hlt heq => ?_
  rw [heq] at hlt
  exact Nat.lt_irrefl _ hlt

/-- What happens later does not change when a name was first bound. -/
theorem ordered_append (h : ListsInOrder bindings id names) (more : List (FrameId × String)) :
    names.Pairwise fun a b =>
      (bindings ++ more).idxOf (id, a) < (bindings ++ more).idxOf (id, b) := by
  refine h.ordered.imp_of_mem fun {a b} ha hb hlt => ?_
  rw [List.idxOf_append_of_mem ((h.mem_iff a).1 ha), List.idxOf_append_of_mem ((h.mem_iff b).1 hb)]
  exact hlt

/-- What happens to other frames does not matter. -/
theorem of_others (h : ListsInOrder bindings id names) {more : List (FrameId × String)}
    (hmore : ∀ p ∈ more, p.1 ≠ id) : ListsInOrder (bindings ++ more) id names where
  mem_iff name := by
    have hnot : (id, name) ∉ more := fun hmem => hmore _ hmem rfl
    rw [h.mem_iff, List.mem_append, or_iff_left hnot]
  ordered := h.ordered_append more

/-- **A name that is bound again keeps its place, and a new one comes last.** -/
theorem set {α : Type} {t : Table α} (h : ListsInOrder bindings id t.names) (name : String)
    (entry : α) : ListsInOrder (bindings ++ [(id, name)]) id (t.set name entry).names := by
  rw [Table.names_set]
  by_cases hmem : name ∈ t.names
  · rw [if_pos hmem]
    refine ⟨fun other => ?_, h.ordered_append _⟩
    rw [h.mem_iff, List.mem_append, List.mem_singleton]
    refine ⟨.inl, fun hor => hor.elim (fun hin => hin) fun heq => ?_⟩
    rw [heq]
    exact (h.mem_iff name).1 hmem
  · rw [if_neg hmem]
    have hnew : (id, name) ∉ bindings := fun hin => hmem ((h.mem_iff name).2 hin)
    refine ⟨fun other => ?_, List.pairwise_append.2
      ⟨h.ordered_append _, List.pairwise_singleton _ _, fun a ha b hb => ?_⟩⟩
    · rw [List.mem_append, List.mem_append, h.mem_iff, List.mem_singleton, List.mem_singleton,
        Prod.mk_right_inj]
    · -- the new name was bound after everything that was bound before
      have hbound := (h.mem_iff a).1 ha
      obtain rfl := List.mem_singleton.1 hb
      rw [List.idxOf_append_of_mem hbound, List.idxOf_append_of_notMem hnew]
      exact Nat.lt_add_right _ (List.idxOf_lt_length_of_mem hbound)

theorem setAll {α : Type} {t : Table α} (h : ListsInOrder bindings id t.names)
    (pairs : List (String × α)) :
    ListsInOrder (bindings ++ pairs.map fun p => (id, p.1)) id (t.setAll pairs).names := by
  induction pairs generalizing t bindings with
  | nil =>
    rw [List.map_nil, List.append_nil]
    exact h
  | cons p pairs ih =>
    have hnext := ih (h.set p.1 p.2)
    rwa [List.append_assoc] at hnext

end ListsInOrder

end Store

theorem Frame.map_fst_pair (names : List String) (values : List (Option Value)) :
    (pair names values).map Prod.fst = names := by
  induction names generalizing values with
  | nil => rfl
  | cons name names ih =>
    cases values with
    | nil => exact congrArg (name :: ·) (ih [])
    | cons value values => exact congrArg (name :: ·) (ih values)

namespace Store

/-- A new frame lists the names that it was made with, each where it first occurs. -/
theorem listsInOrder_bind {bindings : List (FrameId × String)} {id : FrameId}
    (h : ListsInOrder bindings id []) (names : List String) (values : List (Option Value)) :
    ListsInOrder (bindings ++ names.map fun name => (id, name)) id
      (Frame.bind names values).names := by
  have hbound : (Frame.pair names values).map (fun p => (id, p.1))
      = names.map fun name => (id, name) := by
    rw [← Function.comp_def (fun name => (id, name)), ← List.map_map, Frame.map_fst_pair]
  rw [← hbound]
  exact ListsInOrder.setAll (t := Table.empty) h (Frame.pair names values)

/-! ### What a history leaves behind -/

variable {s : Store} {env : Env} {envs : List Env} {bindings : List (FrameId × String)}

theorem of_extend_eq_ok {t : Store} {id : FrameId} {names : List String}
    {values : List (Option Value)} (h : s.extend env names values = .ok (id :: env, t)) :
    id = s.frames.size ∧ t = (s.push env (Frame.bind names values)).2 := by
  rw [extend, Frame.ofArguments] at h
  split at h
  · cases h
    exact ⟨rfl, rfl⟩
  · cases h

theorem of_assign_eq_ok {t : Store} {id : FrameId} {name : String} {value : Option Value}
    (hresolve : s.resolve env name = some id) (h : s.assign env name value = .ok t) :
    t = s.setSlot id name value := by
  rw [assign, assignable, hresolve] at h
  exact (Except.ok.inj h).symm

namespace History

/-- The environments of a history consist of frames that were made. -/
theorem lt_size (h : History s envs bindings) :
    ∀ env ∈ envs, ∀ id ∈ env, id < s.frames.size := by
  induction h with
  | start =>
    intro env henv id hid
    rw [List.mem_singleton.1 henv] at hid
    cases hid
  | @extend s t envs bindings env id names values _ henv hrun ih =>
    obtain ⟨rfl, rfl⟩ := of_extend_eq_ok hrun
    -- the new frame has the next number, and the others are the frames there were
    have hold : ∀ env ∈ envs, ∀ id ∈ env, id < s.frames.size + 1 :=
      fun env henv id hid => Nat.lt_succ_of_lt (ih env henv id hid)
    rw [size_push]
    refine List.forall_mem_cons.2 ⟨?_, hold⟩
    exact List.forall_mem_cons.2 ⟨Nat.lt_succ_self _, hold env henv⟩
  | define _ _ hrun ih =>
    obtain rfl := Except.ok.inj hrun
    rw [size_setSlot]
    exact ih
  | assign _ _ hresolve hrun ih =>
    obtain rfl := of_assign_eq_ok hresolve hrun
    rw [size_setSlot]
    exact ih

/-- A write to a frame that was made is one more time at which a frame bound a name. -/
theorem listsInOrder_setSlot (h : ∀ id, ListsInOrder bindings id (s.frame id).names) {id : FrameId}
    (hsize : id < s.frames.size) (name : String) (value : Option Value) (other : FrameId) :
    ListsInOrder (bindings ++ [(id, name)]) other
      ((s.setSlot id name value).frame other).names := by
  rw [frame_setSlot s hsize]
  split
  · -- the frame that is written to lists the name at its end, unless it is listed already
    next heq =>
    subst heq
    exact (h other).set name value
  · next hne =>
    refine (h other).of_others fun p hp heq => hne ?_
    rw [List.mem_singleton.1 hp] at heq
    exact heq.symm

/-- **Every frame lists its names in the order in which it first bound them.** -/
theorem listsInOrder (h : History s envs bindings) :
    ∀ id, ListsInOrder bindings id (s.frame id).names := by
  induction h with
  | start =>
    intro id
    rw [show (∅ : Store).frame id = ∅ from frame_empty id]
    exact ⟨fun name => ⟨nofun, nofun⟩, .nil⟩
  | @extend s t envs bindings env id names values _ _ hrun ih =>
    obtain ⟨rfl, rfl⟩ := of_extend_eq_ok hrun
    intro other
    by_cases hother : other = s.frames.size
    · subst hother
      -- a frame that does not exist yet has bound nothing
      have hfresh := ih s.frames.size
      rw [frame_of_size_le s (Nat.le_refl _)] at hfresh
      rw [frame_push_size]
      exact listsInOrder_bind hfresh names values
    · -- the frames that were there are as they were, and so are those that still do not exist
      have hframe : (s.push env (Frame.bind names values)).2.frame other = s.frame other := by
        rcases Nat.lt_or_gt_of_ne hother with hlt | hgt
        · exact frame_push s env _ hlt
        · rw [frame_of_size_le _ (by rw [size_push]; exact hgt),
            frame_of_size_le s (Nat.le_of_lt hgt)]
      rw [hframe]
      refine (ih other).of_others fun p hp heq => hother ?_
      obtain ⟨name, -, rfl⟩ := List.mem_map.1 hp
      exact heq.symm
  | define hhistory henv hrun ih =>
    obtain rfl := Except.ok.inj hrun
    exact listsInOrder_setSlot ih (hhistory.lt_size _ henv _ List.mem_cons_self) _ _
  | assign hhistory henv hresolve hrun ih =>
    obtain rfl := of_assign_eq_ok hresolve hrun
    have hsize := hhistory.lt_size _ henv _ (of_resolve_eq_some hresolve).1
    exact listsInOrder_setSlot ih hsize _ _

end History

/-! ### The names of a chain -/

/-- Dropping repetitions leaves none. -/
theorem nodup_eraseDups (names : List String) : names.eraseDups.Nodup := by
  match names with
  | [] => exact List.nodup_nil
  | name :: rest =>
    rw [List.eraseDups_cons, List.nodup_cons]
    refine ⟨fun hmem => ?_, nodup_eraseDups (rest.filter fun other => !other == name)⟩
    simpa using (List.mem_filter.1 (List.mem_eraseDups.1 hmem)).2
termination_by names.length
decreasing_by exact Nat.lt_succ_of_le (List.length_filter_le _ _)

theorem eraseDups_of_nodup {names : List String} (h : names.Nodup) : names.eraseDups = names := by
  induction names with
  | nil => rfl
  | cons name rest ih =>
    obtain ⟨hname, hrest⟩ := List.nodup_cons.1 h
    have hfilter : rest.filter (fun other => !other == name) = rest := by
      refine List.filter_eq_self.2 fun other hother => ?_
      simpa using ne_of_mem_of_not_mem hother hname
    rw [List.eraseDups_cons, hfilter, ih hrest]

/-- A name is visible if some frame of the chain binds it. -/
theorem mem_allNames_iff {name : String} :
    name ∈ s.allNames env ↔ ∃ id, s.resolve env name = some id := by
  rw [allNames, List.mem_eraseDups, List.mem_flatMap, ← Option.isSome_iff_exists, resolve,
    List.find?_isSome]
  simp only [Table.contains_iff_mem_names]

/-- Of the names of a chain those that no nearer frame binds, each once: a frame repeats no name,
and what remains of the frames after it are the names that it does not bind. -/
theorem eraseDups_filter_names (h : ∀ id ∈ env, (s.frame id).names.Nodup) (nearer : List FrameId) :
    ((env.flatMap fun id => (s.frame id).names).filter fun name =>
        nearer.all fun n => !(s.frame n).contains name).eraseDups
      = s.unhidden nearer env := by
  -- the innermost frame is put in front of those that hide the rest
  induction env generalizing nearer with
  | nil => rfl
  | cons id outer ih =>
    obtain ⟨hid, houter⟩ := List.forall_mem_cons.1 h
    rw [List.flatMap_cons, List.filter_append, List.eraseDups_append,
      eraseDups_of_nodup (hid.filter _), unhidden, ← ih houter (nearer ++ [id]), List.removeAll,
      List.filter_filter]
    congr 3
    funext name
    rw [List.all_append, List.all_cons, List.all_nil, Bool.and_true, Bool.eq_iff_iff]
    simp only [Bool.and_eq_true, Bool.not_eq_true', ← Bool.not_eq_true, List.elem_eq_mem,
      decide_eq_true_eq, List.mem_filter, Table.contains_iff_mem_names]
    tauto

/-- The visible names, frame by frame. -/
theorem allNames_eq_unhidden (h : ∀ id ∈ env, (s.frame id).names.Nodup) :
    s.allNames env = s.unhidden [] env := by
  have hnothing : ((env.flatMap fun id => (s.frame id).names).filter fun name =>
      ([] : List FrameId).all fun n => !(s.frame n).contains name)
        = env.flatMap fun id => (s.frame id).names := List.filter_eq_self.2 fun _ _ => rfl
  rw [allNames, ← hnothing]
  exact eraseDups_filter_names h []

/-- **The visible names of an environment** are all different, they are those that resolve to a
frame, and they are the names of its frames that no nearer frame binds, from the innermost frame
outwards. Each frame has its names in the order in which it first bound them, however often and in
whatever way it bound them again. -/
theorem History.allNames_exact (h : History s envs bindings) (env : Env) :
    (s.allNames env).Nodup
      ∧ (∀ name, name ∈ s.allNames env ↔ ∃ id, s.resolve env name = some id)
      ∧ s.allNames env = s.unhidden [] env
      ∧ ∀ id ∈ env, ListsInOrder bindings id (s.frame id).names :=
  ⟨nodup_eraseDups _, fun _ => mem_allNames_iff,
    allNames_eq_unhidden fun id _ => (h.listsInOrder id).nodup, fun id _ => h.listsInOrder id⟩

/-- Two environments share a frame that binds `a` twice. Then the one defines `b` in front of it,
and the other assigns `a`: only the order of the first changes. -/
theorem History.allNames_exact_siblings : ∃ s bindings,
    History s [[2, 0], [1, 0], [0], []] bindings
      ∧ s.allNames [1, 0] = ["c", "b", "a"] ∧ s.allNames [2, 0] = ["d", "a", "b"]
      ∧ (s.allNames [1, 0]).Nodup
      ∧ (∀ name, name ∈ s.allNames [1, 0] ↔ ∃ id, s.resolve [1, 0] name = some id)
      ∧ s.allNames [1, 0] = s.unhidden [] [1, 0]
      ∧ ∀ id ∈ [1, 0], ListsInOrder bindings id (s.frame id).names := by
  -- two siblings over one frame; the first defines a name that the frame they share has too
  have hshared := History.start.extend (List.mem_singleton_self [])
    (rfl : Store.extend ∅ [] ["a", "b", "a"] [none, none, none] = .ok ([0], _))
  have hfirst := hshared.extend List.mem_cons_self
    (rfl : Store.extend _ [0] ["c"] [none] = .ok ([1, 0], _))
  have hsecond := hfirst.extend (List.mem_cons_of_mem [1, 0] List.mem_cons_self)
    (rfl : Store.extend _ [0] ["d"] [none] = .ok ([2, 0], _))
  have hdefined := hsecond.define (List.mem_cons_of_mem [2, 0] List.mem_cons_self)
    (rfl : Store.define _ [1, 0] "b" (some (.boolean true)) = .ok _)
  have hassigned := hdefined.assign List.mem_cons_self
    (rfl : Store.resolve _ [2, 0] "a" = some 0)
    (rfl : Store.assign _ [2, 0] "a" (some (.boolean true)) = .ok _)
  exact ⟨_, _, hassigned, by decide, by decide, hassigned.allNames_exact [1, 0]⟩

end Store

end SmallLisp
