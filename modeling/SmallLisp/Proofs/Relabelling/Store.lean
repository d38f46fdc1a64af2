import SmallLisp.Environment.Store
import SmallLisp.Eval.State
import SmallLisp.Proofs.Relabelling.Value

/-!
# Relabelled stores

A store is relabelled by relabelling what its frames bind. Names resolve as before and mean the
relabelled values, and writes and new frames of relabelled values are those of the relabelled store.

Which frames there are and what they are called is no matter of identities: a frame is a position of
the store, and environments stay as they are.
-/

namespace SmallLisp

open Value

/-- The frame with what it binds relabelled. -/
def Frame.relabel (φ : Relabelling) (f : Frame) : Frame :=
  f.map (Option.map (Value.relabel φ))

/-- The store with everything in it relabelled. -/
def Store.relabel (φ : Relabelling) (s : Store) : Store :=
  ⟨s.frames.map (Frame.relabel φ)⟩

variable {φ : Relabelling}

namespace Frame

@[simp] theorem contains_relabel (f : Frame) (name : String) :
    Table.contains (f.relabel φ) name = Table.contains f name :=
  Table.contains_map _ f name

@[simp] theorem names_relabel (f : Frame) : Table.names (f.relabel φ) = Table.names f :=
  Table.names_map _ f

theorem value?_relabel (f : Frame) (name : String) :
    (f.relabel φ).value? name = (f.value? name).map (Value.relabel φ) := by
  have hget : Table.get? (f.relabel φ) name
      = (Table.get? f name).map (Option.map (Value.relabel φ)) := Table.get?_map _ f name
  -- a name can be bound without a value
  rw [value?, value?, hget]
  match Table.get? f name with
  | none | some none | some (some _) => rfl

theorem set_relabel (f : Frame) (name : String) (value : Option Value) :
    Table.set (f.relabel φ) name (value.map (Value.relabel φ))
      = Frame.relabel φ (Table.set f name value) :=
  Table.map_set _ f name value

theorem pair_relabel (names : List String) (values : List (Option Value)) :
    pair names (values.map (Option.map (Value.relabel φ)))
      = (pair names values).map fun p => (p.1, p.2.map (Value.relabel φ)) := by
  induction names generalizing values with
  | nil => rfl
  | cons name names ih =>
    cases values with
    | nil => exact congrArg ((name, none) :: ·) (ih [])
    | cons value values => exact congrArg ((name, _) :: ·) (ih values)

/-- The frame of relabelled arguments is the relabelled frame. -/
theorem ofArguments_relabel (names : List String) (values : List (Option Value)) :
    ofArguments names (values.map (Option.map (Value.relabel φ)))
      = (ofArguments names values).map (Frame.relabel φ) := by
  rw [ofArguments, ofArguments, List.length_map]
  by_cases hlength : names.length = values.length
  · rw [if_pos hlength, if_pos hlength, bind, pair_relabel]
    exact congrArg Except.ok (Table.map_ofPairs _ _)
  · rw [if_neg hlength, if_neg hlength]
    rfl

end Frame

namespace Store

/-! ### Looking things up -/

@[simp] theorem frame_relabel (s : Store) (id : FrameId) :
    (s.relabel φ).frame id = (s.frame id).relabel φ := by
  by_cases hid : id < s.frames.size
  · simp [frame, relabel, hid]
  · have hnone : s.frame id = ∅ := s.frame_of_size_le (Nat.le_of_not_lt hid)
    have hnone' : (s.relabel φ).frame id = ∅ :=
      (s.relabel φ).frame_of_size_le (by rw [relabel, Array.size_map]; exact Nat.le_of_not_lt hid)
    rw [hnone, hnone']
    rfl

@[simp] theorem resolve_relabel (s : Store) (env : Env) (name : String) :
    (s.relabel φ).resolve env name = s.resolve env name := by
  unfold resolve
  congr 1
  funext id
  rw [frame_relabel, Frame.contains_relabel]

@[simp] theorem agree_relabel (s : Store) (a b : Env) (name : String) :
    (s.relabel φ).agree a b name = s.agree a b name := by
  rw [agree, agree, resolve_relabel, resolve_relabel]

/-- **A name means the relabelled value.** -/
theorem find_relabel (s : Store) (env : Env) (name : String) :
    (s.relabel φ).find env name = (s.find env name).map (Value.relabel φ) := by
  rw [find, find, resolve_relabel]
  cases s.resolve env name with
  | none => rfl
  | some id =>
    show ((s.relabel φ).frame id).value? name = _
    rw [frame_relabel, Frame.value?_relabel]
    rfl

theorem lookup_relabel (s : Store) (env : Env) (name : String) :
    (s.relabel φ).lookup env name = (s.lookup env name).map (Value.relabel φ) := by
  rw [lookup, lookup, find_relabel]
  cases s.find env name with
  | none => rfl
  | some v => rfl

@[simp] theorem assignable_relabel (s : Store) (env : Env) (name : String) :
    (s.relabel φ).assignable env name = s.assignable env name := by
  rw [assignable, assignable, resolve_relabel]

@[simp] theorem allNames_relabel (s : Store) (env : Env) :
    (s.relabel φ).allNames env = s.allNames env := by
  unfold allNames
  congr 2
  funext id
  rw [frame_relabel, Frame.names_relabel]

/-! ### Changing things -/

/-- **Writing a relabelled value** is writing the value before everything is relabelled. -/
theorem setSlot_relabel (s : Store) (id : FrameId) (name : String) (value : Option Value) :
    (s.relabel φ).setSlot id name (value.map (Value.relabel φ))
      = (s.setSlot id name value).relabel φ := by
  let write : Frame → Frame := fun f => Table.set f name value
  let write' : Frame → Frame := fun f => Table.set f name (value.map (Value.relabel φ))
  have hmodify : (s.frames.map (Frame.relabel φ)).modify id write'
      = (s.frames.modify id write).map (Frame.relabel φ) := by
    refine Array.ext (by simp) fun i hi hi' => ?_
    rw [Array.getElem_modify, Array.getElem_map, Array.getElem_map, Array.getElem_modify]
    -- the frame that is written to and every other one
    by_cases hid : id = i
    · rw [if_pos hid, if_pos hid]
      exact Frame.set_relabel _ name value
    · rw [if_neg hid, if_neg hid]
  exact congrArg Store.mk hmodify

theorem push_relabel (s : Store) (env : Env) (f : Frame) :
    (s.relabel φ).push env (f.relabel φ) = ((s.push env f).1, (s.push env f).2.relabel φ) := by
  simp [push, relabel]

/-! ### What a store holds -/

/-- A frame of the store binds a name to the value. -/
def Holds (s : Store) (v : Value) : Prop :=
  ∃ f ∈ s.frames, ∃ name, (name, some v) ∈ Table.entries f

/-- **Only what happens to the objects in a store matters to it.** -/
theorem relabel_congr {ψ : Relabelling} {s : Store}
    (h : ∀ v, s.Holds v → φ.AgreeOn ψ v.identities) : s.relabel φ = s.relabel ψ := by
  refine congrArg Store.mk (Array.map_congr_left fun f hf => ?_)
  refine congrArg Table.mk (List.map_congr_left fun p hp => ?_)
  obtain ⟨name, entry⟩ := p
  cases entry with
  | none => rfl
  | some v =>
    show (name, some (v.relabel φ)) = (name, some (v.relabel ψ))
    rw [Value.relabel_congr v (h v ⟨f, hf, name, hp⟩)]

/-- A store that stays the same has no object whose number changes. -/
theorem object_eq_of_relabel_eq {s : Store} (h : s.relabel φ = s) {v : Value} (hv : s.Holds v) :
    ∀ i ∈ v.identities, φ.object i = i := by
  obtain ⟨f, hf, name, hentry⟩ := hv
  -- a map that changes no list as a whole changes no element of it
  have hfixed : ∀ {α : Type} {g : α → α} {xs : List α}, xs.map g = xs → ∀ x ∈ xs, g x = x := by
    intro α g xs hxs
    exact List.map_inj_left.1 (hxs.trans (List.map_id xs).symm)
  have hframes : s.frames.toList.map (Frame.relabel φ) = s.frames.toList := by
    rw [← Array.toList_map]
    exact congrArg (fun t : Store => t.frames.toList) h
  have hframe : f.relabel φ = f := hfixed hframes f (Array.mem_toList_iff.2 hf)
  have hsame := hfixed (congrArg Table.entries hframe) (name, some v) hentry
  exact Value.object_eq_of_relabel_eq v (Option.some.inj (congrArg Prod.snd hsame))

@[simp] theorem relabel_refl (s : Store) : s.relabel .refl = s := by
  have hvalue : Option.map (Value.relabel .refl) = id := by
    funext entry
    cases entry with
    | none => rfl
    | some v => exact congrArg some (Value.relabel_refl v)
  have hframe : Frame.relabel .refl = id := by
    funext f
    show Table.map (Option.map (Value.relabel .refl)) f = f
    rw [hvalue]
    exact congrArg Table.mk (List.map_id _)
  rw [relabel, hframe, Array.map_id]

end Store

/-- Every object in the store has received its number. -/
def State.Numbered (s : State) : Prop :=
  ∀ v, s.store.Holds v → ∀ i ∈ v.identities, i < s.nextIdentity

end SmallLisp
