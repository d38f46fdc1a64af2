import SmallLisp.Proofs.Discipline.Machine
import SmallLisp.Proofs.Environment.Reachability

/-!
# The state of a closure is confined

An evaluation works with the frames that can be reached from its expression and its environment, and
with those that it makes. It leaves every other frame exactly as it was, and its value leads to no
other frame (`Machine.confined`). The same holds of an application, from its procedure and its
arguments.

What can be reached changes with every write, in both directions, so it cannot be followed step by
step. The invariant is the set of frames that could be reached when the run began, with all frames
that did not exist yet. It never changes, and it is closed: as long as no value that mentions any
other frame is bound in one of them, no such value can come up. That is the discipline
`Discipline.frames` of this set, and leaving other frames alone is the footprint
`Footprint.untouched`.
-/

namespace SmallLisp

theorem Discipline.ne_of_known (D : Discipline) {id other : FrameId} (hid : D.Known id)
    (hother : ¬ D.Known other) : other ≠ id := by
  rintro rfl
  exact hother hid

/-- Leaving alone every frame that the discipline does not know. -/
def Footprint.untouched (D : Discipline) : Footprint D where
  Rel _ s t := ∀ id, ¬ D.Known id → t.store.frame id = s.store.frame id
  refl _ _ _ _ := rfl
  trans hst htu id hid := by rw [htu id hid, hst id hid]
  outer h := h
  settle _ _ _ _ _ := rfl
  close _ _ _ _ := rfl
  output _ _ _ _ _ := rfl
  trace _ _ _ _ _ _ _ _ := rfl
  deeper h := h
  define hknown _ _ _ hid := Store.frame_setSlot_of_ne _ (D.ne_of_known hknown hid) _ _
  assign hknown _ _ _ hid := Store.frame_setSlot_of_ne _ (D.ne_of_known hknown hid) _ _
  call {s env f _} hs _ h id hid := by
    -- a frame that is yet to be made would be known
    have hlt : id < s.store.frames.size := Nat.lt_of_not_le fun hle => hid (hs.fresh id hle)
    rw [h id hid, Store.frame_push s.store env f hlt]

/-- What it means for a computation that starts with some frames to be confined to them. -/
structure Eval.Confined (root : FrameId → Prop) (s : State) (x : Eval Value) : Prop where
  /-- Frames out of reach stay as they were, whether the computation ends in a value or not. -/
  untouched : ∀ id < s.store.frames.size, ¬ s.store.Reaches root id →
    (x.finalState s).store.frame id = s.store.frame id
  /-- From the value only frames can be reached that could be reached before, or that are new. -/
  reached : ∀ v t, x s = .ok v t → ∀ id < t.store.frames.size,
    t.store.Reaches (fun other => v.Mentions other) id →
    s.store.Reaches root id ∨ s.store.frames.size ≤ id

/-- The frames that can be reached, and those that are yet to be made. -/
def Store.Accessible (s : Store) (root : FrameId → Prop) (id : FrameId) : Prop :=
  s.Reaches root id ∨ s.frames.size ≤ id

/-- The discipline of mentioning accessible frames only. -/
def Discipline.confinement (s : Store) (root : FrameId → Prop) : Discipline :=
  .frames (s.Accessible root)

variable {root : FrameId → Prop} {s : State}

/-- At the start no accessible frame leads to one that is not accessible: what is bound in a frame
that can be reached is reached through it, and nothing is bound in a frame that is yet to
be made. -/
theorem Discipline.holds_confinement (s : Store) (root : FrameId → Prop) :
    (confinement s root).Holds s where
  fresh _ hid := .inr hid
  named _ _ _ _ := trivial
  bound id hid name v hv := by
    refine within_frames fun other hother => .inl ?_
    rcases hid with hreaches | hsize
    · exact .bound hreaches hv hother
    · rw [Store.frame_of_size_le s hsize] at hv
      cases hv

/-- A value that mentions nothing but the frames at the start keeps to the discipline. -/
theorem Discipline.within_confinement {s : Store} {role : Role} {v : Value}
    (h : ∀ id, v.Mentions id → root id) : (confinement s root).Within role v :=
  within_frames fun id hid => .inl (.root (h id hid))

/-- A run that keeps to the discipline of the accessible frames is confined. -/
theorem Eval.Confined.of_runsFrom {x : Eval Value} {V : Verdict} {inner : Option FrameId}
    (h : (Footprint.untouched (.confinement s.store root)).RunsFrom V inner s x
      (Discipline.confinement s.store root).Data) : x.Confined root s where
  untouched id hid hreaches := by
    refine h.rel id ?_
    rintro (hreached | hsize)
    · exact hreaches hreached
    · exact Nat.not_le_of_lt hid hsize
  reached v t hx id _ hreaches := by
    -- the final store still keeps to the discipline, which lets nothing else be reached
    obtain ⟨hleads, hv⟩ := Eval.Ensures.of_eq_ok h hx
    exact hleads.holds.known_of_reaches (fun _ hmentions => hv.known hmentions) hreaches

/-- **The state of a closure is confined.** An evaluation is confined to the frames of its
environment and those that its expression mentions, and an application to those that its procedure
and its arguments mention. So calling one closure leaves alone the frames of any other that it
cannot reach. -/
theorem Machine.confined (config : Config) (levels : Nat) (s : State) :
    (∀ e env, ((machine config levels).evaluate e env).Confined
      (fun id => e.Mentions id ∨ id ∈ env) s)
      ∧ ∀ procedure arguments, ((machine config levels).apply procedure arguments).Confined
          (fun id => procedure.Mentions id ∨ ∃ a ∈ arguments, a.Mentions id) s := by
  constructor
  · intro e env
    -- what can be reached from the expression, the environment and the store as it was
    let D := Discipline.confinement s.store fun id => e.Mentions id ∨ id ∈ env
    have he : D.Code e := Discipline.within_confinement fun _ hid => .inl hid
    have henv : D.Scope env := fun _ hid => .inl (.root (.inr hid))
    have hkeeps := (Footprint.untouched D).keeps_machine config levels
    exact .of_runsFrom (hkeeps.evaluate he henv s (Discipline.holds_confinement _ _))
  · intro procedure arguments
    let D := Discipline.confinement s.store fun id =>
      procedure.Mentions id ∨ ∃ a ∈ arguments, a.Mentions id
    have hprocedure : D.Data procedure := Discipline.within_confinement fun _ hid => .inl hid
    have harguments : ∀ a ∈ arguments, D.Data a := fun a ha =>
      Discipline.within_confinement fun _ hid => .inr ⟨a, ha, hid⟩
    have hkeeps := (Footprint.untouched D).keeps_machine config levels
    exact .of_runsFrom (hkeeps.apply hprocedure harguments s (Discipline.holds_confinement _ _))

/-- Two frames with a cell each, and one that their environments share. -/
def Store.twoCells : Store :=
  ⟨#[.ofPairs [("shared", some (.string "s"))], .ofPairs [("cell", some (.string "a"))],
    .ofPairs [("cell", some (.string "b"))]]⟩

/-- The procedure that writes to the cell of a frame. -/
def Value.cellWriter (id : FrameId) : Value :=
  .compound none [] [.ofList [.symbol "set!", .symbol "cell", .string "c"]] [id, 0] none

/-- The procedure that writes to the first cell cannot reach the second one. -/
theorem Store.le_one_of_reaches_twoCells {id : FrameId}
    (h : Store.twoCells.Reaches
      (fun id => (Value.cellWriter 1).Mentions id ∨ ∃ a ∈ ([] : List Value), a.Mentions id) id) :
    id ≤ 1 := by
  induction h with
  | root hroot =>
    rcases hroot with hmentions | ⟨a, ha, -⟩
    · cases hmentions with
      | scope hmem =>
        rcases List.mem_pair.1 hmem with rfl | rfl <;> decide
      | body he hin =>
        obtain rfl := List.mem_singleton.1 he
        cases hin with
        | element hv hmentions =>
          simp only [List.mem_cons, List.not_mem_nil, or_false] at hv
          rcases hv with rfl | rfl | rfl <;> cases hmentions
    · cases ha
  | @bound id other name v _ hv hmentions ih =>
    -- frames 0 and 1 bind strings, which mention nothing
    have hmem := Table.mem_entries_of_get? hv
    rcases Nat.le_one_iff_eq_zero_or_eq_one.1 ih with rfl | rfl
    all_goals
      cases List.mem_singleton.1 hmem
      cases hmentions

theorem Machine.confined_twoCells :
    let s := { State.initial SpecialForm.registry with store := .twoCells }
    let t := (((machine ⟨Derived.all, false⟩ 3).apply (.cellWriter 1) []).finalState s).store
    (t.frame 1).get? "cell" = some (some (.string "c")) ∧ t.frame 2 = Store.twoCells.frame 2 := by
  refine ⟨rfl, ?_⟩
  have hconfined := (Machine.confined ⟨Derived.all, false⟩ 3
    { State.initial SpecialForm.registry with store := .twoCells }).2 (.cellWriter 1) []
  refine hconfined.untouched 2 (by decide) fun h => ?_
  exact absurd (Store.le_one_of_reaches_twoCells h) (by decide)

end SmallLisp
