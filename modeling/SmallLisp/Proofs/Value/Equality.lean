import Mathlib.Data.List.Forall2
import SmallLisp.Proofs.Number.Equality
import SmallLisp.Value.Equality
import SmallLisp.Value.Spelling

/-!
# The two equalities

Identity looks at objects before it looks at their content, likeness looks at the elements of lists
before it looks at objects. Among the values of one world of objects (`Inhabits`) an identity stands
for one object, so both are equivalences, the first is the finer one, and the type, the truth and
the text of a value do not tell alike values apart (`equalities`).

Neither holds of values whose objects have no identity: what is not a number is identical to itself
as an object only. Nor does it hold of values from two worlds, where one identity stands for two
objects.

What carries the proofs is that identical values of a world are the same value or have the same
content (`isIdentical_iff`), and that values of a world are alike only as lists whose elements are,
or as identical values that are no lists (`isAlike_iff`).
-/

namespace SmallLisp.Value

/-! ### Worlds of objects -/

/-- A value whose objects are those of a world: each number, list and procedure in it, and each
transformer, has an identity and is the object that the world has for it. What a procedure holds
stands for no part of the value. -/
inductive Inhabits (objects : Identity → Value) : Value → Prop where
  | string (text : String) : Inhabits objects (string text)
  | boolean (b : Bool) : Inhabits objects (boolean b)
  | symbol (name : String) : Inhabits objects (symbol name)
  | list {elements : List Value} {i : Identity} : objects i = list elements (some i) →
      (∀ v ∈ elements, Inhabits objects v) → Inhabits objects (list elements (some i))
  | object {v : Value} {i : Identity} : v.isList = false → v.self? = some i → objects i = v →
      Inhabits objects v

/-- The values of a world of objects. -/
abbrev Inhabitant (objects : Identity → Value) : Type :=
  {v : Value // v.Inhabits objects}

section

variable {objects : Identity → Value} {u v w : Value} {xs ys : List Value}

theorem Inhabits.eq_object {i : Identity} (hv : v.Inhabits objects) (h : v.self? = some i) :
    objects i = v := by
  cases hv with
  | string | boolean | symbol => cases h
  | list hobject =>
    cases h
    exact hobject
  | object _ hself hobject =>
    rw [hself] at h
    cases h
    exact hobject

/-- **An identity stands for one object of a world.** -/
theorem eq_of_sameObject (hv : v.Inhabits objects) (hw : w.Inhabits objects)
    (h : v.sameObject w = true) : v = w := by
  rw [sameObject] at h
  split at h
  · next i j hi hj =>
    obtain rfl := beq_iff_eq.1 h
    rw [← hv.eq_object hi, hw.eq_object hj]
  · cases h

/-! ### The same content -/

theorem sameContent_symm (h : v.sameContent w = true) : w.sameContent v = true := by
  unfold sameContent at h
  split at h
  · exact Number.beq_symm h
  · exact beq_iff_eq.2 (beq_iff_eq.1 h).symm
  · exact beq_iff_eq.2 (beq_iff_eq.1 h).symm
  · exact beq_iff_eq.2 (beq_iff_eq.1 h).symm
  · rfl
  · cases h

theorem sameContent_trans (huv : u.sameContent v = true) (hvw : v.sameContent w = true) :
    u.sameContent w = true := by
  unfold sameContent at huv
  split at huv
  · -- equality of floats, which is transitive although it is not reflexive
    cases w with
    | number => exact Number.beq_trans huv hvw
    | _ => cases hvw
  · rwa [beq_iff_eq.1 huv]
  · rwa [beq_iff_eq.1 huv]
  · rwa [beq_iff_eq.1 huv]
  · cases w with
    | list elements => cases elements with
      | nil => rfl
      | cons => cases hvw
    | _ => cases hvw
  · cases huv

/-- Values of the same content are of one kind. -/
theorem isList_eq_of_sameContent (h : v.sameContent w = true) : v.isList = w.isList := by
  unfold sameContent at h
  split at h <;> first | rfl | cases h

theorem typeName_eq_of_sameContent (h : v.sameContent w = true) : v.typeName = w.typeName := by
  unfold sameContent at h
  split at h <;> first | rfl | cases h

theorem isTruthy_eq_of_sameContent (h : v.sameContent w = true) : v.isTruthy = w.isTruthy := by
  unfold sameContent at h
  split at h
  · rfl
  · rfl
  · rw [beq_iff_eq.1 h]
  · rfl
  · rfl
  · cases h

theorem spell_eq_of_sameContent (h : v.sameContent w = true) (style : Style) :
    v.spell style = w.spell style := by
  unfold sameContent at h
  split at h
  · exact Number.spell_eq_of_beq h
  · rw [beq_iff_eq.1 h]
  · rw [beq_iff_eq.1 h]
  · rw [beq_iff_eq.1 h]
  · rfl
  · cases h

/-! ### Identity -/

theorem Inhabits.isIdentical_self (hv : v.Inhabits objects) : v.isIdentical v = true := by
  rw [isIdentical, Bool.or_eq_true]
  cases hv with
  | string | boolean | symbol => exact .inr (beq_self_eq_true _)
  | list => exact .inl (beq_self_eq_true _)
  | object _ hself =>
    refine .inl ?_
    rw [sameObject, hself]
    exact beq_self_eq_true _

/-- **Identical values are the same value, or have the same content.** -/
theorem isIdentical_iff (hv : v.Inhabits objects) (hw : w.Inhabits objects) :
    v.isIdentical w = true ↔ v = w ∨ v.sameContent w = true := by
  constructor
  · intro h
    rw [isIdentical, Bool.or_eq_true] at h
    exact h.imp (eq_of_sameObject hv hw) id
  · rintro (rfl | h)
    · exact hv.isIdentical_self
    · rw [isIdentical, Bool.or_eq_true]
      exact .inr h

theorem isIdentical_symm (hv : v.Inhabits objects) (hw : w.Inhabits objects)
    (h : v.isIdentical w = true) : w.isIdentical v = true := by
  rw [isIdentical_iff hw hv]
  exact ((isIdentical_iff hv hw).1 h).imp Eq.symm sameContent_symm

theorem isIdentical_trans (hu : u.Inhabits objects) (hv : v.Inhabits objects)
    (hw : w.Inhabits objects) (huv : u.isIdentical v = true) (hvw : v.isIdentical w = true) :
    u.isIdentical w = true := by
  rcases (isIdentical_iff hu hv).1 huv with rfl | huv
  · exact hvw
  rcases (isIdentical_iff hv hw).1 hvw with rfl | hvw
  · exact (isIdentical_iff hu hv).2 (.inr huv)
  · exact (isIdentical_iff hu hw).2 (.inr (sameContent_trans huv hvw))

/-! ### Likeness -/

theorem allAlike_iff :
    allAlike xs ys = true ↔ List.Forall₂ (fun x y => x.isAlike y = true) xs ys := by
  induction xs generalizing ys with
  | nil => cases ys <;> simp [allAlike]
  | cons x xs ih => cases ys <;> simp [allAlike, ih]

theorem isAlike_list_iff {i j : Option Identity} : (Value.list xs i).isAlike (.list ys j) = true ↔
    List.Forall₂ (fun x y => x.isAlike y = true) xs ys := by
  rw [isAlike, allAlike_iff]

theorem isAlike_of_not_isList (h : v.isList = false ∨ w.isList = false) :
    v.isAlike w = v.isIdentical w := by
  unfold isAlike
  split
  · rcases h with h | h <;> cases h
  · rfl

/-- **Values of a world are alike as lists or as identical values that are no lists.** -/
theorem isAlike_iff (hv : v.Inhabits objects) (hw : w.Inhabits objects) : v.isAlike w = true ↔
    (∃ xs i ys j, v = .list xs i ∧ w = .list ys j ∧
      List.Forall₂ (fun x y => x.isAlike y = true) xs ys) ∨
    (v.isList = false ∧ w.isList = false) ∧ v.isIdentical w = true := by
  by_cases hlists : v.isList = false ∨ w.isList = false
  · rw [isAlike_of_not_isList hlists]
    constructor
    · intro h
      -- what is identical is of the same kind, so neither of the two is a list
      have hkind : v.isList = w.isList := by
        rcases (isIdentical_iff hv hw).1 h with rfl | hcontent
        · rfl
        · exact isList_eq_of_sameContent hcontent
      rw [← hkind, or_self] at hlists
      exact .inr ⟨⟨hlists, hkind ▸ hlists⟩, h⟩
    · rintro (⟨xs, i, ys, j, rfl, rfl, -⟩ | ⟨-, h⟩)
      · rcases hlists with h | h <;> cases h
      · exact h
  · -- both are lists, and are compared element by element
    rw [not_or, Bool.not_eq_false, Bool.not_eq_false] at hlists
    obtain ⟨xs, i, rfl⟩ : ∃ xs i, v = .list xs i := by
      cases v with
      | list xs i => exact ⟨xs, i, rfl⟩
      | _ => cases hlists.1
    obtain ⟨ys, j, rfl⟩ : ∃ ys j, w = .list ys j := by
      cases w with
      | list ys j => exact ⟨ys, j, rfl⟩
      | _ => cases hlists.2
    rw [isAlike_list_iff]
    constructor
    · exact fun h => .inl ⟨xs, i, ys, j, rfl, rfl, h⟩
    · rintro (⟨_, _, _, _, ⟨⟩, ⟨⟩, h⟩ | ⟨⟨h, -⟩, -⟩)
      · exact h
      · cases h

theorem Inhabits.of_mem {i : Option Identity} (h : (Value.list xs i).Inhabits objects) {x : Value}
    (hx : x ∈ xs) : x.Inhabits objects := by
  cases h with
  | list _ helements => exact helements x hx
  | object hlist => cases hlist

/-- What likeness recurs on: the elements of lists. -/
@[elab_as_elim]
theorem Inhabits.listInduction {motive : (v : Value) → v.Inhabits objects → Prop}
    (list : ∀ {xs : List Value} {i : Option Identity} (h : (Value.list xs i).Inhabits objects),
      (∀ (x : Value) (hx : x ∈ xs), motive x (h.of_mem hx)) → motive (.list xs i) h)
    (other : ∀ {v : Value} (h : v.Inhabits objects), v.isList = false → motive v h)
    {v : Value} (hv : v.Inhabits objects) : motive v hv := by
  induction hv with
  | string | boolean | symbol => exact other _ rfl
  | list hobject helements ih => exact list (.list hobject helements) ih
  | object hlist => exact other _ hlist

theorem Inhabits.isAlike_self (hv : v.Inhabits objects) : v.isAlike v = true := by
  induction hv using Inhabits.listInduction with
  | list _ ih => exact isAlike_list_iff.2 (List.forall₂_same.2 ih)
  | other hv hlist =>
    rw [isAlike_of_not_isList (.inl hlist)]
    exact hv.isIdentical_self

theorem isAlike_of_isIdentical (hv : v.Inhabits objects) (hw : w.Inhabits objects)
    (h : v.isIdentical w = true) : v.isAlike w = true := by
  rcases (isIdentical_iff hv hw).1 h with rfl | hcontent
  · exact hv.isAlike_self
  · cases hv with
    | list =>
      -- lists of the same content are empty
      unfold sameContent at hcontent
      split at hcontent <;> simp_all [isAlike, allAlike]
    | _ => exact (isAlike_of_not_isList (.inl (by first | rfl | assumption))).trans h

theorem isAlike_symm (hv : v.Inhabits objects) (hw : w.Inhabits objects)
    (h : v.isAlike w = true) : w.isAlike v = true := by
  induction hv using Inhabits.listInduction generalizing w with
  | list hv ih =>
    rcases (isAlike_iff hv hw).1 h with ⟨xs, i, ys, j, ⟨⟩, rfl, hall⟩ | ⟨⟨hlist, -⟩, -⟩
    · -- element by element
      rw [isAlike_list_iff, List.forall₂_iff_get]
      exact ⟨hall.length_eq.symm, fun k hk hk' => ih _ (List.get_mem _ _)
        (hw.of_mem (List.get_mem _ _)) (hall.get hk' hk)⟩
    · cases hlist
  | other hv hlist =>
    rw [isAlike_of_not_isList (.inl hlist)] at h
    rw [isAlike_of_not_isList (.inr hlist)]
    exact isIdentical_symm hv hw h

theorem isAlike_trans (hu : u.Inhabits objects) (hv : v.Inhabits objects)
    (hw : w.Inhabits objects) (huv : u.isAlike v = true) (hvw : v.isAlike w = true) :
    u.isAlike w = true := by
  induction hu using Inhabits.listInduction generalizing v w with
  -- the middle one is a list of the same length, and so is the last one
  | list hu ih =>
    rcases (isAlike_iff hu hv).1 huv with ⟨xs, i, ys, j, ⟨⟩, rfl, hxy⟩ | ⟨⟨hlist, -⟩, -⟩
    · rcases (isAlike_iff hv hw).1 hvw with ⟨_, _, zs, k, ⟨⟩, rfl, hyz⟩ | ⟨⟨hlist, -⟩, -⟩
      · rw [isAlike_list_iff, List.forall₂_iff_get]
        refine ⟨hxy.length_eq.trans hyz.length_eq, fun n hx hz => ?_⟩
        have hy := hxy.length_eq ▸ hx
        exact ih _ (List.get_mem _ _) (hv.of_mem (List.get_mem _ _))
          (hw.of_mem (List.get_mem _ _)) (hxy.get hx hy) (hyz.get hy hz)
      · cases hlist
    · cases hlist
  | other hu hlist =>
    rcases (isAlike_iff hu hv).1 huv with ⟨_, _, _, _, rfl, -, -⟩ | ⟨⟨-, hlist'⟩, huv⟩
    · cases hlist
    · -- if one of them is no list then none is, and identity decides
      rw [isAlike_of_not_isList (.inl hlist')] at hvw
      rw [isAlike_of_not_isList (.inl hlist)]
      exact isIdentical_trans hu hv hw huv hvw

/-! ### What likeness does not tell apart -/

/-- A property of values that are no lists is one of alike values if it is one of their content. -/
theorem eq_of_isAlike {β : Type} (f : Value → β)
    (hcontent : ∀ v w : Value, v.sameContent w = true → f v = f w)
    (hlists : ∀ {xs ys : List Value} {i j : Option Identity},
      List.Forall₂ (fun x y => f x = f y) xs ys → f (.list xs i) = f (.list ys j))
    (hv : v.Inhabits objects) (hw : w.Inhabits objects) (h : v.isAlike w = true) : f v = f w := by
  induction hv using Inhabits.listInduction generalizing w with
  | list hv ih =>
    rcases (isAlike_iff hv hw).1 h with ⟨xs, i, ys, j, ⟨⟩, rfl, hall⟩ | ⟨⟨hlist, -⟩, -⟩
    · refine hlists (List.forall₂_iff_get.2 ⟨hall.length_eq, fun k hk hk' => ?_⟩)
      exact ih _ (List.get_mem _ _) (hw.of_mem (List.get_mem _ _)) (hall.get hk hk')
    · cases hlist
  | other hv hlist =>
    rw [isAlike_of_not_isList (.inl hlist), isIdentical_iff hv hw] at h
    -- the same object, or the same content
    rcases h with rfl | h
    · rfl
    · exact hcontent _ _ h

theorem spell_eq_of_isAlike (hv : v.Inhabits objects) (hw : w.Inhabits objects)
    (h : v.isAlike w = true) (style : Style) : v.spell style = w.spell style := by
  refine eq_of_isAlike (spell style) (fun _ _ h => spell_eq_of_sameContent h style) ?_ hv hw h
  intro xs ys i j hall
  have hwords : xs.map (spell style) = ys.map (spell style) := by
    induction hall with
    | nil => rfl
    | cons hhead _ ih => rw [List.map_cons, List.map_cons, hhead, ih]
  rw [spell_list, spell_list, hwords]

end

/-- **The two equalities of values.** Among the values of a world of objects identity and likeness
are equivalences, and identical values are alike. Lists are alike just if they are of one length and
their elements are, pair by pair. Alike values are of one type, count alike as conditions, and have
one text in either style. -/
theorem equalities (objects : Identity → Value) :
    Equivalence (fun v w : Inhabitant objects => v.1.isIdentical w.1 = true) ∧
    Equivalence (fun v w : Inhabitant objects => v.1.isAlike w.1 = true) ∧
    (∀ v w : Inhabitant objects, v.1.isIdentical w.1 = true → v.1.isAlike w.1 = true) ∧
    (∀ (xs ys : List Value) (i j : Option Identity), (list xs i).isAlike (list ys j) = true ↔
      xs.length = ys.length ∧
        ∀ (k : Nat) (hx : k < xs.length) (hy : k < ys.length), xs[k].isAlike ys[k] = true) ∧
    ∀ v w : Inhabitant objects, v.1.isAlike w.1 = true →
      v.1.typeName = w.1.typeName ∧ v.1.isTruthy = w.1.isTruthy ∧
        v.1.write = w.1.write ∧ v.1.display = w.1.display := by
  refine ⟨⟨fun v => v.2.isIdentical_self, fun {v w} => isIdentical_symm v.2 w.2,
      fun {u v w} => isIdentical_trans u.2 v.2 w.2⟩,
    ⟨fun v => v.2.isAlike_self, fun {v w} => isAlike_symm v.2 w.2,
      fun {u v w} => isAlike_trans u.2 v.2 w.2⟩,
    fun v w => isAlike_of_isIdentical v.2 w.2, fun xs ys i j => ?_, fun v w h => ?_⟩
  · rw [isAlike_list_iff, List.forall₂_iff_get]
    rfl
  · -- whatever is the same for the same content and for lists element by element is the same for
    -- values alike
    have htype := eq_of_isAlike typeName (fun _ _ => typeName_eq_of_sameContent) (fun _ => rfl)
      v.2 w.2 h
    have htruth := eq_of_isAlike isTruthy (fun _ _ => isTruthy_eq_of_sameContent) (fun _ => rfl)
      v.2 w.2 h
    exact ⟨htype, htruth, congrArg String.ofList (spell_eq_of_isAlike v.2 w.2 h _),
      congrArg String.ofList (spell_eq_of_isAlike v.2 w.2 h _)⟩

/-- Two lists, with one object that is not a number, zeros of either sign and a procedure, are alike
but not identical. -/
theorem equalities_lists :
    ∃ (objects : Identity → Value) (v w : Inhabitant objects),
      v.1 = list [.number (0.0 / 0.0) (some 2), .number 0.0 (some 3),
        .primitive (.operation .car) (some 4)] (some 0) ∧
      w.1 = list [.number (0.0 / 0.0) (some 2), .number (-0.0) (some 5),
        .primitive (.operation .car) (some 4)] (some 1) ∧
      v.1.isIdentical w.1 = false ∧ v.1.isAlike w.1 = true ∧ v.1.write = w.1.write := by
  let nan : Value := .number (0.0 / 0.0) (some 2)
  let zero : Value := .number 0.0 (some 3)
  let procedure : Value := .primitive (.operation .car) (some 4)
  let negative : Value := .number (-0.0) (some 5)
  -- the two lists share a NaN and a procedure, but not the zero
  let objects : Identity → Value := fun i =>
    [list [nan, zero, procedure] (some 0), list [nan, negative, procedure] (some 1),
      nan, zero, procedure, negative].getD i (.boolean false)
  have hnan : nan.Inhabits objects := .object rfl rfl rfl
  have hzero : zero.Inhabits objects := .object rfl rfl rfl
  have hprocedure : procedure.Inhabits objects := .object rfl rfl rfl
  have hnegative : negative.Inhabits objects := .object rfl rfl rfl
  have hv : (list [nan, zero, procedure] (some 0)).Inhabits objects :=
    .list rfl (by simp [hnan, hzero, hprocedure])
  have hw : (list [nan, negative, procedure] (some 1)).Inhabits objects :=
    .list rfl (by simp [hnan, hnegative, hprocedure])
  have halike : (list [nan, zero, procedure] (some 0)).isAlike
      (list [nan, negative, procedure] (some 1)) = true := by
    rfl
  have hall := (equalities objects).2.2.2.2 ⟨_, hv⟩ ⟨_, hw⟩ halike
  exact ⟨objects, ⟨_, hv⟩, ⟨_, hw⟩, rfl, rfl, rfl, halike, hall.2.2.1⟩

end SmallLisp.Value
