import SmallLisp.Environment.Frame
import SmallLisp.Failure.Basic

/-!
# The store of frames

Environments are chains of frame names, and the frames themselves live in one store. Every
environment and closure whose chain holds a frame therefore sees each write to it. The store only
grows: extending an environment appends a frame and leaves every other as it was.
-/

namespace SmallLisp

/-- All frames ever made; a `FrameId` is a position. -/
structure Store where
  frames : Array Frame
  deriving Inhabited

namespace Store

/-- The store without frames. -/
def empty : Store := ⟨#[]⟩

instance : EmptyCollection Store := ⟨empty⟩

/-- The frame of that name; a name that was never given out stands for the empty frame. -/
def frame (s : Store) (id : FrameId) : Frame :=
  s.frames.getD id ∅

/-- Replaces the value that a frame has for a name. -/
def setSlot (s : Store) (id : FrameId) (name : String) (value : Option Value) : Store :=
  ⟨s.frames.modify id fun f => f.set name value⟩

/-- The nearest frame of a chain that binds the name. -/
def resolve (s : Store) (env : Env) (name : String) : Option FrameId :=
  env.find? fun id => (s.frame id).contains name

/-- Whether a name means the same in two environments: the same frame binds it, or none does. -/
def agree (s : Store) (a b : Env) (name : String) : Bool :=
  s.resolve a name == s.resolve b name

/-- The value that a name has in an environment. -/
def find (s : Store) (env : Env) (name : String) : Option Value :=
  (s.resolve env name).bind fun id => (s.frame id).value? name

/-- The value of a name, or the fault of a name that has none. -/
def lookup (s : Store) (env : Env) (name : String) : Except EvalFault Value :=
  match s.find env name with
  | some v => .ok v
  | none => .error (.unboundVariable name)

/-- The frame that an assignment to the name writes to: the nearest one that binds it. -/
def assignable (s : Store) (env : Env) (name : String) : Except EvalFault FrameId :=
  match s.resolve env name with
  | some id => .ok id
  | none => .error (.unboundVariable name)

/-- The frame that a definition of the name writes to: the innermost one. -/
def definable (env : Env) (name : String) : Except UsageFault FrameId :=
  match env with
  | id :: _ => .ok id
  | [] => .error (.defineInEmptyEnvironment name)

/-- Overwrites the nearest binding of a name. -/
def assign (s : Store) (env : Env) (name : String) (value : Option Value) :
    Except EvalFault Store :=
  (s.assignable env name).map fun id => s.setSlot id name value

/-- Binds a name in the innermost frame, whether or not an outer frame binds it too. -/
def define (s : Store) (env : Env) (name : String) (value : Option Value) :
    Except UsageFault Store :=
  (definable env name).map fun id => s.setSlot id name value

/-- Appends a frame to the store and puts it in front of the chain. -/
def push (s : Store) (env : Env) (f : Frame) : Env × Store :=
  (s.frames.size :: env, ⟨s.frames.push f⟩)

/-- The environment with one more frame, which binds the names to the values. As many values as
names are required. -/
def extend (s : Store) (env : Env) (names : List String) (values : List (Option Value)) :
    Except EvalFault (Env × Store) :=
  (Frame.ofArguments names values).map (s.push env)

/-- The names that are visible in an environment, innermost first and each once. -/
def allNames (s : Store) (env : Env) : List String :=
  (env.flatMap fun id => (s.frame id).names).eraseDups

/-! ### Small laws -/

@[simp] theorem frame_empty (id : FrameId) : empty.frame id = ∅ := by
  simp [frame, empty]

@[simp] theorem resolve_nil (s : Store) (name : String) : s.resolve [] name = none := rfl

/-- A write reaches the frame it names and no other. -/
theorem frame_setSlot (s : Store) {id : FrameId} (h : id < s.frames.size) (other : FrameId)
    (name : String) (value : Option Value) :
    (s.setSlot id name value).frame other
      = if other = id then (s.frame id).set name value else s.frame other := by
  by_cases ho : other = id
  · subst ho
    simp [setSlot, frame, h, Array.getElem_modify]
  · have hi : ¬ id = other := fun e => ho e.symm
    by_cases hs : other < s.frames.size
    · simp [setSlot, frame, hs, hi, ho, Array.getElem_modify]
    · simp [setSlot, frame, hs, ho]

/-- A name that was never given out stands for the empty frame. -/
theorem frame_of_size_le (s : Store) {id : FrameId} (h : s.frames.size ≤ id) : s.frame id = ∅ := by
  simp [frame, h]

@[simp] theorem size_setSlot (s : Store) (id : FrameId) (name : String) (value : Option Value) :
    (s.setSlot id name value).frames.size = s.frames.size := by
  simp [setSlot]

/-- A write to a frame that does not exist does nothing. -/
theorem setSlot_of_size_le (s : Store) {id : FrameId} (h : s.frames.size ≤ id) (name : String)
    (value : Option Value) : s.setSlot id name value = s := by
  obtain ⟨frames⟩ := s
  have hid : ¬ id < frames.size := Nat.not_lt_of_le h
  simp [setSlot, Array.modify, Array.modifyM, hid]

/-- A write reaches no frame but the one it names. -/
theorem frame_setSlot_of_ne (s : Store) {id other : FrameId} (h : other ≠ id) (name : String)
    (value : Option Value) : (s.setSlot id name value).frame other = s.frame other := by
  by_cases hid : id < s.frames.size
  · rw [frame_setSlot s hid, if_neg h]
  · rw [setSlot_of_size_le s (Nat.le_of_not_lt hid)]

/-- What a frame binds after a write was bound before, or is what was written. -/
theorem get?_frame_setSlot (s : Store) {id other : FrameId} {name written : String}
    {value entry : Option Value}
    (h : ((s.setSlot id written value).frame other).get? name = some entry) :
    (s.frame other).get? name = some entry ∨ (other = id ∧ name = written ∧ entry = value) := by
  by_cases ho : other = id
  · subst ho
    -- a frame that does not exist is not written to
    by_cases hid : other < s.frames.size
    · rw [frame_setSlot s hid, if_pos rfl, Table.get?_set] at h
      by_cases hname : name = written
      · rw [if_pos hname] at h
        exact .inr ⟨rfl, hname, (Option.some.inj h).symm⟩
      · rw [if_neg hname] at h
        exact .inl h
    · rw [setSlot_of_size_le s (Nat.le_of_not_lt hid)] at h
      exact .inl h
  · rw [frame_setSlot_of_ne s ho] at h
    exact .inl h

@[simp] theorem size_push (s : Store) (env : Env) (f : Frame) :
    (s.push env f).2.frames.size = s.frames.size + 1 := by
  simp [push]

/-- A new frame is what was pushed. -/
theorem frame_push_size (s : Store) (env : Env) (f : Frame) :
    (s.push env f).2.frame s.frames.size = f := by
  simp [push, frame]

/-- A new frame leaves the old ones as they were. -/
theorem frame_push (s : Store) (env : Env) (f : Frame) {id : FrameId} (h : id < s.frames.size) :
    (s.push env f).2.frame id = s.frame id := by
  have hs : id < s.frames.size + 1 := Nat.lt_succ_of_lt h
  simp [push, frame, h, hs, Array.getElem_push]

/-- A name resolves to a frame of the chain that binds it. -/
theorem of_resolve_eq_some {s : Store} {env : Env} {name : String} {id : FrameId}
    (h : s.resolve env name = some id) : id ∈ env ∧ (s.frame id).contains name = true :=
  ⟨List.mem_of_find?_eq_some h, by simpa using List.find?_some h⟩

theorem resolve_cons (s : Store) (id : FrameId) (env : Env) (name : String) :
    s.resolve (id :: env) name
      = if (s.frame id).contains name then some id else s.resolve env name := by
  simp only [resolve, List.find?_cons]
  split <;> simp_all

end Store

end SmallLisp
