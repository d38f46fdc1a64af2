import Mathlib.Data.List.Forall2

/-!
# Traversals that may fail

A chain of computations succeeds exactly when each of them does, and so does `List.mapM`, whose
answer is then the list of the single answers (`forall₂_of_mapM_ok`, `mapM_ok_of_forall₂`). It fails
with what one of them fails with (`Faults.bind`, `Faults.mapM`, `mapM_eq_error`). The other lemmas
are about lists that are related element by element, which is how the repetitions of an ellipsis,
their bindings and their forms are kept together, and about two traversals that run side by side
(`optionRel_mapM`).
-/

namespace SmallLisp

variable {α β γ δ ε : Type}

/-! ### Chains in `Except` -/

theorem bind_eq_ok_iff {x : Except ε α} {f : α → Except ε β} {b : β} :
    (x >>= f) = .ok b ↔ ∃ a, x = .ok a ∧ f a = .ok b := by
  cases x with
  | ok a => exact ⟨fun h => ⟨a, rfl, h⟩, fun ⟨_, rfl, h⟩ => h⟩
  | error fault => exact ⟨nofun, nofun⟩

theorem map_eq_ok_iff {x : Except ε α} {f : α → β} {b : β} :
    x.map f = .ok b ↔ ∃ a, x = .ok a ∧ f a = b := by
  cases x with
  | ok a => exact ⟨fun h => ⟨a, rfl, Except.ok.inj h⟩, fun ⟨_, rfl, h⟩ => congrArg Except.ok h⟩
  | error fault => exact ⟨nofun, nofun⟩

/-! ### Faults of a chain -/

/-- The computation fails, if it fails, with a fault of which `P` holds. -/
def Faults (P : ε → Prop) (x : Except ε α) : Prop :=
  ∀ fault, x = .error fault → P fault

namespace Faults

variable {P : ε → Prop}

theorem ok (a : α) : Faults P (.ok a) := nofun

theorem error {fault : ε} (h : P fault) : Faults P (.error fault : Except ε α) := by
  intro other heq
  cases heq
  exact h

theorem map {x : Except ε α} (h : Faults P x) (f : α → β) : Faults P (x.map f) := by
  cases x with
  | ok a => exact ok (f a)
  | error fault => exact error (h fault rfl)

theorem bind {x : Except ε α} {f : α → Except ε β} (h : Faults P x)
    (hf : ∀ a, x = .ok a → Faults P (f a)) : Faults P (x >>= f) := by
  cases x with
  | ok a => exact hf a rfl
  | error fault => exact error (h fault rfl)

theorem mapM {f : α → Except ε β} {as : List α} (h : ∀ a ∈ as, Faults P (f a)) :
    Faults P (as.mapM f) := by
  induction as with
  | nil => exact ok []
  | cons a as ih =>
    obtain ⟨hfirst, hrest⟩ := List.forall_mem_cons.1 h
    rw [List.mapM_cons]
    exact hfirst.bind fun b _ => (ih hrest).bind fun bs _ => ok (b :: bs)

end Faults

/-! ### Traversals -/

/-- Answers that exist one by one exist as a list. -/
theorem exists_forall₂ {R : α → β → Prop} {xs : List α} (h : ∀ x ∈ xs, ∃ y, R x y) :
    ∃ ys, List.Forall₂ R xs ys := by
  induction xs with
  | nil => exact ⟨[], .nil⟩
  | cons x xs ih =>
    obtain ⟨y, hy⟩ := h x List.mem_cons_self
    obtain ⟨ys, hys⟩ := ih fun z hz => h z (List.mem_cons_of_mem x hz)
    exact ⟨y :: ys, .cons hy hys⟩

/-- Answers that exist for each pair of related elements exist as a list. -/
theorem exists_forall₂_of_forall₂ {R : α → β → Prop} {S : α → γ → Prop} {T : β → γ → Prop}
    {xs : List α} {ys : List β} (h : List.Forall₂ R xs ys)
    (hR : ∀ x y, R x y → ∃ z, S x z ∧ T y z) :
    ∃ zs, List.Forall₂ S xs zs ∧ List.Forall₂ T ys zs := by
  induction h with
  | nil => exact ⟨[], .nil, .nil⟩
  | cons hxy _ ih =>
    obtain ⟨z, hS, hT⟩ := hR _ _ hxy
    obtain ⟨zs, hSs, hTs⟩ := ih
    exact ⟨z :: zs, .cons hS hSs, .cons hT hTs⟩

/-- Answers that exist for each row of three columns, the first of which is related to the other
two, exist as a fourth column. -/
theorem exists_forall₂_of_rows {R : α → β → Prop} {S : α → γ → Prop} {P : α → δ → Prop}
    {Q : β → δ → Prop} {T : γ → δ → Prop} {xs : List α} {ys : List β} {zs : List γ}
    (hR : List.Forall₂ R xs ys) (hS : List.Forall₂ S xs zs)
    (h : ∀ x y z, R x y → S x z → ∃ w, P x w ∧ Q y w ∧ T z w) :
    ∃ ws, List.Forall₂ P xs ws ∧ List.Forall₂ Q ys ws ∧ List.Forall₂ T zs ws := by
  induction hR generalizing zs with
  | nil =>
    cases hS
    exact ⟨[], .nil, .nil, .nil⟩
  | cons hxy _ ih =>
    cases hS with
    | cons hxz hrest =>
      obtain ⟨w, hP, hQ, hT⟩ := h _ _ _ hxy hxz
      obtain ⟨ws, hPs, hQs, hTs⟩ := ih hrest
      exact ⟨w :: ws, .cons hP hPs, .cons hQ hQs, .cons hT hTs⟩

theorem map_eq_map_of_forall₂ {f : α → γ} {g : β → γ} {xs : List α} {ys : List β}
    (h : List.Forall₂ (fun x y => g y = f x) xs ys) : ys.map g = xs.map f := by
  induction h with
  | nil => rfl
  | cons hxy _ ih => rw [List.map_cons, List.map_cons, hxy, ih]

/-- What holds of every element, and passes from an element to its answer, holds of every answer. -/
theorem forall_mem_of_forall₂ {R : α → β → Prop} {P : α → Prop} {Q : β → Prop} {xs : List α}
    {ys : List β} (h : List.Forall₂ R xs ys) (hxs : ∀ x ∈ xs, P x)
    (hR : ∀ x y, P x → R x y → Q y) : ∀ y ∈ ys, Q y := by
  induction h with
  | nil => nofun
  | cons hxy _ ih =>
    obtain ⟨hx, hrest⟩ := List.forall_mem_cons.1 hxs
    exact List.forall_mem_cons.2 ⟨hR _ _ hx hxy, ih hrest⟩

theorem forall₂_of_mapM_some {f : α → Option β} {xs : List α} {ys : List β}
    (h : xs.mapM f = some ys) : List.Forall₂ (fun x y => f x = some y) xs ys := by
  induction xs generalizing ys with
  | nil => cases h; exact .nil
  | cons x xs ih =>
    rw [List.mapM_cons] at h
    obtain ⟨y, hx, h⟩ := Option.bind_eq_some_iff.1 h
    obtain ⟨rest, hxs, h⟩ := Option.bind_eq_some_iff.1 h
    cases h
    exact .cons hx (ih hxs)

theorem mapM_some_of_forall₂ {f : α → Option β} {xs : List α} {ys : List β}
    (h : List.Forall₂ (fun x y => f x = some y) xs ys) : xs.mapM f = some ys := by
  induction h with
  | nil => rfl
  | cons hx _ ih => rw [List.mapM_cons, hx, ih]; rfl

theorem forall₂_of_mapM_ok {f : α → Except ε β} {xs : List α} {ys : List β}
    (h : xs.mapM f = .ok ys) : List.Forall₂ (fun x y => f x = .ok y) xs ys := by
  induction xs generalizing ys with
  | nil => cases h; exact .nil
  | cons x xs ih =>
    rw [List.mapM_cons] at h
    obtain ⟨y, hx, h⟩ := bind_eq_ok_iff.1 h
    obtain ⟨rest, hxs, h⟩ := bind_eq_ok_iff.1 h
    cases h
    exact .cons hx (ih hxs)

theorem mapM_ok_of_forall₂ {f : α → Except ε β} {xs : List α} {ys : List β}
    (h : List.Forall₂ (fun x y => f x = .ok y) xs ys) : xs.mapM f = .ok ys := by
  induction h with
  | nil => rfl
  | cons hx _ ih => rw [List.mapM_cons, hx, ih]; rfl

/-- **A traversal with only one fault** fails with it if one of the computations does. -/
theorem mapM_eq_error {f : α → Except ε β} {fault : ε} {xs : List α}
    (hfaults : ∀ x ∈ xs, Faults (· = fault) (f x)) {x : α} (hx : x ∈ xs) (h : f x = .error fault) :
    xs.mapM f = .error fault := by
  cases hall : xs.mapM f with
  | error other => rw [Faults.mapM hfaults other hall]
  | ok ys =>
    have hanswers : ∀ x ∈ xs, ∃ y, f x = .ok y :=
      forall_mem_of_forall₂ (forall₂_of_mapM_ok hall).flip (fun _ _ => trivial) fun y _ _ hy =>
        ⟨y, hy⟩
    obtain ⟨y, hy⟩ := hanswers x hx
    rw [h] at hy
    cases hy

/-- Answers that are put into lists of their own and then into one list. -/
theorem flatten_mapM_singleton (f : α → Except ε β) (xs : List α) :
    (xs.mapM fun x => (f x).map ([·])).map List.flatten = xs.mapM f := by
  induction xs with
  | nil => rfl
  | cons x xs ih =>
    rw [List.mapM_cons, List.mapM_cons, ← ih]
    cases f x with
    | error fault => rfl
    | ok y => cases xs.mapM fun x => (f x).map ([·]) <;> rfl

/-! ### Answers that are related, or missing on both sides -/

section OptionRel

variable {R : α → β → Prop} {S : γ → δ → Prop}

theorem optionRel_bind {x : Option α} {y : Option β} {f : α → Option γ} {g : β → Option δ}
    (h : Option.Rel R x y) (hf : ∀ a b, x = some a → R a b → Option.Rel S (f a) (g b)) :
    Option.Rel S (x.bind f) (y.bind g) := by
  cases h with
  | none => exact .none
  | some hab => exact hf _ _ rfl hab

theorem optionRel_map {x : Option α} {y : Option β} {f : α → γ} {g : β → δ}
    (h : Option.Rel R x y) (hf : ∀ a b, x = some a → R a b → S (f a) (g b)) :
    Option.Rel S (x.map f) (y.map g) := by
  cases h with
  | none => exact .none
  | some hab => exact .some (hf _ _ rfl hab)

theorem optionRel_map_left {T : γ → β → Prop} {x : Option α} {y : Option β} {f : α → γ}
    (h : Option.Rel R x y) (hf : ∀ a b, x = some a → R a b → T (f a) b) :
    Option.Rel T (x.map f) y := by
  cases h with
  | none => exact .none
  | some hab => exact .some (hf _ _ rfl hab)

/-- What is related to that which an answer becomes is related to the answer. -/
theorem optionRel_of_map_right {T : α → δ → Prop} {x : Option α} {y : Option β} {g : β → δ}
    (h : Option.Rel T x (y.map g)) (hg : ∀ a b, T a (g b) → R a b) : Option.Rel R x y := by
  cases x with
  | none => cases y <;> cases h; exact .none
  | some a =>
    cases y with
    | none => cases h
    | some b =>
      cases h with
      | some hab => exact .some (hg a b hab)

/-- Traversals whose single answers are related have related lists of answers. -/
theorem optionRel_mapM {f : α → Option γ} {g : α → Option δ} (h : ∀ a, Option.Rel S (f a) (g a))
    (as : List α) : Option.Rel (List.Forall₂ S) (as.mapM f) (as.mapM g) := by
  induction as with
  | nil => exact .some .nil
  | cons a as ih =>
    rw [List.mapM_cons, List.mapM_cons]
    exact optionRel_bind (h a) fun _ _ _ hfirst =>
      optionRel_bind ih fun _ _ _ hrest => .some (.cons hfirst hrest)

end OptionRel

/-! ### Traversals of other elements -/

/-- A traversal of other elements, each of which has the answer of the one that it stands for. -/
theorem mapM_map_eq_map {f : α → γ} {k : α → Option β} {k' : γ → Option δ} {g : β → δ}
    (h : ∀ x, k' (f x) = (k x).map g) {xs : List α} :
    (xs.map f).mapM k' = (xs.mapM k).map (List.map g) := by
  induction xs with
  | nil => rfl
  | cons x xs ih =>
    rw [List.map_cons, List.mapM_cons, List.mapM_cons, h, ih]
    cases k x with
    | none => rfl
    | some y => cases xs.mapM k <;> rfl

end SmallLisp
