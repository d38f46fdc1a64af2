import SmallLisp.Value.Equality
import SmallLisp.Value.Settle

/-!
# Plain values

A template copies lists, so what it builds can equal a form element by element and still be no list
of it. `Value.plain` forgets which lists are which and nothing else: two values with one plain form
are the same tree of the same atoms and procedures. The language's own structural equality does not
tell them apart either (`isAlike_of_plain_eq`). Conversely, what is alike to a value of symbols and
new lists only has this one as its plain form (`plain_eq_of_isAlike`), and keeps it when it settles.
-/

namespace SmallLisp.Value

mutual

/-- The value with every list replaced by one that is no object yet. -/
def plain : Value → Value
  | list elements _ => list (plainAll elements) none
  | v => v

/-- The plain forms of several values. -/
def plainAll : List Value → List Value
  | [] => []
  | v :: vs => v.plain :: plainAll vs

end

theorem plainAll_eq_map (vs : List Value) : plainAll vs = vs.map plain := by
  induction vs with
  | nil => rfl
  | cons v vs ih => rw [plainAll, List.map_cons, ih]

@[simp] theorem plain_list (elements : List Value) (self : Option Identity) :
    (list elements self).plain = list (elements.map plain) none := by
  rw [plain, plainAll_eq_map]

@[simp] theorem plain_ofList (elements : List Value) :
    (ofList elements).plain = ofList (elements.map plain) :=
  plain_list elements none

/-- What is no list is its own plain form. -/
theorem plain_of_not_isList {v : Value} (h : v.isList = false) : v.plain = v := by
  cases v with
  | list => cases h
  | _ => rfl

theorem isList_plain (v : Value) : v.plain.isList = v.isList := by
  cases v <;> rfl

/-- Only what is no list has a plain form that is none. -/
theorem eq_of_plain_eq {v w : Value} (h : w.plain = v.plain) (hv : v.isList = false) : w = v := by
  have hw : w.isList = false := by rw [← isList_plain, h, isList_plain, hv]
  rwa [plain_of_not_isList hv, plain_of_not_isList hw] at h

/-- Values that have plain forms without lists are these. -/
theorem eq_of_map_plain_eq {vs ws : List Value} (h : vs.map plain = ws)
    (hws : ∀ w ∈ ws, w.isList = false) : vs = ws := by
  induction vs generalizing ws with
  | nil => exact h
  | cons v vs ih =>
    subst h
    obtain ⟨hv, hvs⟩ := List.forall_mem_cons.1 hws
    rw [isList_plain] at hv
    rw [List.map_cons, plain_of_not_isList hv, ← ih rfl hvs]

/-- A value with the plain form of a list is a list. -/
theorem exists_of_plain_eq_ofList {v : Value} {us : List Value} (h : v.plain = ofList us) :
    ∃ vs self, v = list vs self ∧ vs.map plain = us := by
  cases v with
  | list vs self =>
    rw [plain_list] at h
    exact ⟨vs, self, rfl, (list.inj h).1⟩
  | _ => cases h

/-- A value with the plain form of a tagged list is a list with this tag. -/
theorem exists_of_plain_eq_tagged {v : Value} {tag : String} {us : List Value}
    (h : v.plain = ofList (symbol tag :: us)) :
    ∃ vs self, v = list (symbol tag :: vs) self ∧ vs.map plain = us := by
  obtain ⟨_, self, rfl, helements⟩ := exists_of_plain_eq_ofList h
  obtain ⟨head, vs, rfl, hhead, hvs⟩ := List.map_eq_cons_iff.1 helements
  obtain rfl : head = symbol tag := eq_of_plain_eq hhead rfl
  exact ⟨vs, self, rfl, hvs⟩

mutual

/-- **Structural equality does not see which lists are which.** A value that is alike to itself is
alike to every value with its plain form. -/
theorem isAlike_of_plain_eq {v w : Value} (h : w.plain = v.plain) (hv : v.isAlike v = true) :
    w.isAlike v = true := by
  match v with
  -- only lists have elements to compare; of the other values the plain form says all
  | list elements self =>
    cases w with
    | list others _ =>
      rw [plain, plain] at h
      injection h with h
      rw [isAlike] at hv ⊢
      exact allAlike_of_plainAll_eq h hv
    | _ => simp [plain] at h
  | number _ _ | string _ | boolean _ | symbol _ | primitive _ _ | compound _ _ _ _ _
  | transformer _ _ _ _ _ =>
    obtain rfl := eq_of_plain_eq h rfl
    exact hv

theorem allAlike_of_plainAll_eq {vs ws : List Value} (h : plainAll ws = plainAll vs)
    (hvs : allAlike vs vs = true) : allAlike ws vs = true := by
  match vs, ws with
  | [], [] => rfl
  | [], w :: ws => cases h
  | v :: vs, [] => cases h
  | v :: vs, w :: ws =>
    rw [plainAll, plainAll] at h
    injection h with hhead htail
    rw [allAlike, Bool.and_eq_true] at hvs ⊢
    exact ⟨isAlike_of_plain_eq hhead hvs.1, allAlike_of_plainAll_eq htail hvs.2⟩

end

/-! ### Skeletons -/

mutual

/-- Whether the value is made of symbols and of lists that are no objects yet. -/
def isSkeleton : Value → Bool
  | list elements none => allSkeletons elements
  | symbol _ => true
  | _ => false

/-- Whether all values are. -/
def allSkeletons : List Value → Bool
  | [] => true
  | v :: vs => v.isSkeleton && allSkeletons vs

end

mutual

/-- What is alike to a skeleton has it as its plain form. -/
theorem plain_eq_of_isAlike {v w : Value} (hw : w.isSkeleton = true) (h : v.isAlike w = true) :
    v.plain = w := by
  match w with
  | list elements none =>
    cases v with
    | list others self =>
      rw [isSkeleton] at hw
      rw [isAlike] at h
      rw [plain, plainAll_eq_of_allAlike hw h]
    | _ => simp [isAlike, isIdentical, sameObject, sameContent, self?] at h
  -- a skeleton is made of lists without an identity and of symbols
  | symbol name =>
    cases v with
    | symbol other =>
      have hname : other = name := by
        simpa [isAlike, isIdentical, sameObject, sameContent, self?] using h
      rw [plain_of_not_isList rfl, hname]
    | _ => simp [isAlike, isIdentical, sameObject, sameContent, self?] at h
  | list _ (some _) | number _ _ | string _ | boolean _ | primitive _ _ | compound _ _ _ _ _
  | transformer _ _ _ _ _ => simp [isSkeleton] at hw

theorem plainAll_eq_of_allAlike {vs ws : List Value} (hws : allSkeletons ws = true)
    (h : allAlike vs ws = true) : plainAll vs = ws := by
  match vs, ws with
  | [], [] => rfl
  | [], w :: ws => cases h
  | v :: vs, [] => cases h
  | v :: vs, w :: ws =>
    rw [allSkeletons, Bool.and_eq_true] at hws
    rw [allAlike, Bool.and_eq_true] at h
    rw [plainAll, plain_eq_of_isAlike hws.1 h.1, plainAll_eq_of_allAlike hws.2 h.2]

end

mutual

/-- What has a skeleton as its plain form keeps it when it settles. -/
theorem plain_settle {v : Value} (h : v.plain.isSkeleton = true) (next : Identity) :
    (v.settle next).1.plain = v.plain := by
  match v with
  | list elements none =>
    rw [plain, isSkeleton] at h
    rw [settle_list, plain, plain, plainAll_settleAll h]
  | list _ (some _) => rw [settle_of_isSettled rfl]
  | symbol name => rw [settle_symbol]
  | number _ _ | string _ | boolean _ | primitive _ _ | compound _ _ _ _ _
  | transformer _ _ _ _ _ => simp [plain, isSkeleton] at h

theorem plainAll_settleAll {vs : List Value} (h : allSkeletons (plainAll vs) = true)
    (next : Identity) : plainAll (settleAll vs next).1 = plainAll vs := by
  match vs with
  | [] => rfl
  | v :: vs =>
    rw [plainAll, allSkeletons, Bool.and_eq_true] at h
    rw [settleAll, plainAll, plainAll, plain_settle h.1, plainAll_settleAll h.2]

end

end SmallLisp.Value
