import SmallLisp.Proofs.Discipline.Machine
import SmallLisp.Proofs.Environment.Reachability

/-!
# Stores only grow

`Store.Grows inner s t` says how the store `t` may differ from an earlier store `s`: there are more
frames, the frame `inner` may bind more names, and every other frame binds the names that it did, in
the order in which it did. Values may differ everywhere. An application has no frame of its own that
was there before, so `inner` is none.

Every evaluation grows the store by the innermost frame of its environment and every application
grows it by none, however they end (`Machine.grows`). This is one of the footprints of
`Proofs.Discipline.Machine`; it asks nothing of values, so its discipline is the one in which
everything is allowed. Chains of frames are values and not part of the store, so there is nothing to
say about them.
-/

namespace SmallLisp

/-- How a store may differ from an earlier one. -/
structure Store.Grows (inner : Option FrameId) (s t : Store) : Prop where
  /-- No frame disappears. -/
  size_le : s.frames.size ≤ t.frames.size
  /-- Frames other than the innermost one bind the names that they did. -/
  names_eq : ∀ id < s.frames.size, inner ≠ some id → (t.frame id).names = (s.frame id).names
  /-- No frame loses a name, and new names come after the old ones. -/
  names_prefix : ∀ id < s.frames.size, (s.frame id).names <+: (t.frame id).names

namespace Store

variable {inner : Option FrameId} {s t u : Store} {id : FrameId} {name : String}
  {value : Option Value}

theorem Grows.refl (inner : Option FrameId) (s : Store) : s.Grows inner s where
  size_le := Nat.le_refl _
  names_eq _ _ _ := rfl
  names_prefix _ _ := List.prefix_rfl

theorem Grows.trans (hst : s.Grows inner t) (htu : t.Grows inner u) : s.Grows inner u where
  size_le := Nat.le_trans hst.size_le htu.size_le
  names_eq id hid hne := by
    rw [htu.names_eq id (Nat.lt_of_lt_of_le hid hst.size_le) hne, hst.names_eq id hid hne]
  names_prefix id hid :=
    (hst.names_prefix id hid).trans (htu.names_prefix id (Nat.lt_of_lt_of_le hid hst.size_le))

/-- What no frame is needed for is allowed with any innermost frame. -/
theorem Grows.outer (h : s.Grows none t) : s.Grows inner t where
  size_le := h.size_le
  names_eq id hid _ := h.names_eq id hid nofun
  names_prefix := h.names_prefix

/-- A write adds at most the name that is written. -/
theorem names_frame_setSlot (s : Store) (id other : FrameId) (name : String)
    (value : Option Value) :
    ((s.setSlot id name value).frame other).names = (s.frame other).names
      ∨ other = id ∧ (s.frame id).contains name = false
        ∧ ((s.setSlot id name value).frame other).names = (s.frame other).names ++ [name] := by
  by_cases ho : other = id
  · subst ho
    -- a frame that does not exist is not changed
    by_cases hsize : other < s.frames.size
    · rw [frame_setSlot s hsize, if_pos rfl, Table.names_set]
      split
      · exact .inl rfl
      · next hnew =>
        rw [← Table.contains_iff_mem_names, Bool.not_eq_true] at hnew
        exact .inr ⟨rfl, hnew, rfl⟩
    · rw [setSlot_of_size_le s (Nat.le_of_not_lt hsize)]
      exact .inl rfl
  · rw [frame_setSlot_of_ne s ho]
    exact .inl rfl

theorem grows_define (s : Store) (id : FrameId) (name : String) (value : Option Value) :
    s.Grows (some id) (s.setSlot id name value) where
  size_le := Nat.le_of_eq (size_setSlot s id name value).symm
  names_eq other _ hne := by
    rw [frame_setSlot_of_ne s fun h => hne (congrArg some h.symm)]
  names_prefix other _ := by
    rcases names_frame_setSlot s id other name value with hsame | ⟨-, -, hmore⟩
    · exact hsame ▸ List.prefix_rfl
    · rw [hmore]
      exact List.prefix_append _ _

theorem grows_assign (h : (s.frame id).contains name = true) :
    s.Grows inner (s.setSlot id name value) := by
  have hnames : ∀ other, ((s.setSlot id name value).frame other).names = (s.frame other).names := by
    intro other
    rcases names_frame_setSlot s id other name value with hsame | ⟨-, hnew, -⟩
    · exact hsame
    · rw [h] at hnew
      cases hnew
  exact ⟨Nat.le_of_eq (size_setSlot s id name value).symm, fun other _ _ => hnames other,
    fun other _ => hnames other ▸ List.prefix_rfl⟩

/-- What happens in a new frame is nothing that an older frame could tell. -/
theorem grows_call (env : Env) (f : Frame)
    (h : (s.push env f).2.Grows (some s.frames.size) t) : s.Grows none t := by
  have hsize : ∀ id, id < s.frames.size → id < (s.push env f).2.frames.size := by
    intro id hid
    rw [size_push]
    exact Nat.lt_succ_of_lt hid
  constructor
  · have := h.size_le
    rw [size_push] at this
    exact Nat.le_of_succ_le this
  · intro id hid _
    -- the frame in which the call may define is not one of the old ones
    have hne : some s.frames.size ≠ some id := fun e => Nat.ne_of_gt hid (Option.some.inj e)
    rw [h.names_eq id (hsize id hid) hne, frame_push s env f hid]
  · intro id hid
    have := h.names_prefix id (hsize id hid)
    rwa [frame_push s env f hid] at this

end Store

/-- Growing stores as a footprint. -/
def Footprint.growth (D : Discipline) : Footprint D where
  Rel inner s t := s.store.Grows inner t.store
  refl inner s := .refl inner s.store
  trans := Store.Grows.trans
  outer := Store.Grows.outer
  settle inner s _ := .refl inner s.store
  close inner s := .refl inner s.store
  output inner s _ := .refl inner s.store
  trace inner s _ _ _ _ := .refl inner s.store
  deeper h := h
  define _ _ _ := Store.grows_define _ _ _ _
  assign _ hbinds _ := Store.grows_assign hbinds
  call {_ env f _} _ _ h := Store.grows_call env f h

/-- **Stores only grow.** However an evaluation ends, frames that existed before it bind the same
names in the same order, but for the innermost frame of its environment, which may bind more names
after those that it had. However an application ends, all frames that existed before it bind the
same names in the same order. -/
theorem Machine.grows (config : Config) (levels : Nat) (s : State) :
    (∀ e env, s.store.Grows env.head? (((machine config levels).evaluate e env).finalState s).store)
      ∧ ∀ procedure arguments,
        s.store.Grows none
          (((machine config levels).apply procedure arguments).finalState s).store := by
  -- under this discipline nothing is asked of values, nor of what is bound in the store
  let D := Discipline.frames fun _ => True
  have hdata : ∀ {role : Discipline.Role} (v : Value), D.Within role v :=
    fun _ => Discipline.within_frames fun _ _ => trivial
  have hscope : ∀ env : Env, D.Scope env := fun _ _ _ => trivial
  have hstore : D.Holds s.store :=
    ⟨fun _ _ => trivial, fun _ _ _ _ => trivial, fun _ _ _ v _ => hdata v⟩
  have hkeeps := (Footprint.growth D).keeps_machine config levels
  constructor
  · intro e env
    exact (hkeeps.evaluate (hdata e) (hscope env) s hstore).rel
  · intro procedure arguments
    exact (hkeeps.apply (hdata procedure) (fun a _ => hdata a) s hstore).rel

end SmallLisp
