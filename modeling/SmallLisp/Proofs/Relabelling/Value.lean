import SmallLisp.Value.Equality
import SmallLisp.Value.Settle
import SmallLisp.Value.Spelling
import Mathlib.Logic.Function.Basic

/-!
# Relabelled values

Which number an object has as its identity, and what a compound procedure was called when it was
defined, make no difference to what the language does with a value, as long as different objects
have different numbers; only in a text the name can be seen. `Value.relabel` changes both throughout
a value, and the lemmas say that what is asked of values does not notice it: the parts of the
evaluator that build values and look at them commute with it.

An object that has not settled has no number yet. Settling commutes with a relabelling that takes
the numbers given out to those given out on the other side (`relabel_settle`).
-/

namespace SmallLisp

/-- Other numbers for objects, and other names for compound procedures. -/
structure Relabelling where
  object : Identity → Identity
  /-- The new name of the compound procedure with that number. -/
  name : Identity → Option String → Option String
  injective : Function.Injective object

namespace Relabelling

/-- The new name of a procedure. One that has not settled keeps its name. -/
def rename (φ : Relabelling) (self : Option Identity) (name : Option String) : Option String :=
  self.elim name (φ.name · name)

end Relabelling

namespace Value

mutual

/-- The value with the numbers of its objects and the names of its procedures replaced. -/
def relabel (φ : Relabelling) : Value → Value
  | number x self => number x (self.map φ.object)
  | string text => string text
  | boolean b => boolean b
  | symbol name => symbol name
  | list elements self => list (relabelAll φ elements) (self.map φ.object)
  | primitive action self => primitive action (self.map φ.object)
  | compound name parameters body env self =>
    compound (φ.rename self name) parameters (relabelAll φ body) env (self.map φ.object)
  | transformer name literals clauses env self =>
    transformer name literals (relabelClauses φ clauses) env (self.map φ.object)

/-- Several values relabelled. -/
def relabelAll (φ : Relabelling) : List Value → List Value
  | [] => []
  | v :: vs => v.relabel φ :: relabelAll φ vs

/-- Patterns and templates relabelled. -/
def relabelClauses (φ : Relabelling) : List (Value × Value) → List (Value × Value)
  | [] => []
  | (pattern, template) :: rest => (pattern.relabel φ, template.relabel φ) :: relabelClauses φ rest

end

variable {φ : Relabelling}

theorem relabelAll_eq_map (vs : List Value) : relabelAll φ vs = vs.map (relabel φ) := by
  induction vs with
  | nil => rfl
  | cons v vs ih => rw [relabelAll, List.map_cons, ih]

theorem relabelClauses_eq_map (clauses : List (Value × Value)) :
    relabelClauses φ clauses = clauses.map fun p => (p.1.relabel φ, p.2.relabel φ) := by
  induction clauses with
  | nil => rfl
  | cons p rest ih => rw [relabelClauses, List.map_cons, ih]

@[simp] theorem relabel_number (x : Float) (self : Option Identity) :
    (number x self).relabel φ = number x (self.map φ.object) := rfl

@[simp] theorem relabel_string (text : String) : (string text).relabel φ = string text := rfl

@[simp] theorem relabel_boolean (b : Bool) : (boolean b).relabel φ = boolean b := rfl

@[simp] theorem relabel_symbol (name : String) : (symbol name).relabel φ = symbol name := rfl

@[simp] theorem relabel_list (elements : List Value) (self : Option Identity) :
    (list elements self).relabel φ = list (elements.map (relabel φ)) (self.map φ.object) := by
  rw [relabel, relabelAll_eq_map]

@[simp] theorem relabel_primitive (action : Action) (self : Option Identity) :
    (primitive action self).relabel φ = primitive action (self.map φ.object) := rfl

@[simp] theorem relabel_compound (name : Option String) (parameters : List String)
    (body : List Value) (env : Env) (self : Option Identity) :
    (compound name parameters body env self).relabel φ
      = compound (φ.rename self name) parameters (body.map (relabel φ)) env
          (self.map φ.object) := by
  rw [relabel, relabelAll_eq_map]

@[simp] theorem relabel_transformer (name : String) (literals : List String)
    (clauses : List (Value × Value)) (env : Env) (self : Option Identity) :
    (transformer name literals clauses env self).relabel φ
      = transformer name literals (clauses.map fun p => (p.1.relabel φ, p.2.relabel φ)) env
          (self.map φ.object) := by
  rw [relabel, relabelClauses_eq_map]

@[simp] theorem relabel_ofList (elements : List Value) :
    (ofList elements).relabel φ = ofList (elements.map (relabel φ)) :=
  relabel_list elements none

@[simp] theorem relabel_num (x : Float) : (num x).relabel φ = num x := rfl

@[simp] theorem relabel_ok : ok.relabel φ = ok := rfl

/-! ### What a value is -/

@[simp] theorem isTruthy_relabel (v : Value) : (v.relabel φ).isTruthy = v.isTruthy := by
  cases v <;> rfl

@[simp] theorem isProcedure_relabel (v : Value) : (v.relabel φ).isProcedure = v.isProcedure := by
  cases v <;> rfl

@[simp] theorem typeName_relabel (v : Value) : (v.relabel φ).typeName = v.typeName := by
  cases v <;> rfl

@[simp] theorem isSymbolNamed_relabel (name : String) (v : Value) :
    (v.relabel φ).isSymbolNamed name = v.isSymbolNamed name := by
  cases v <;> rfl

@[simp] theorem self?_relabel (v : Value) : (v.relabel φ).self? = v.self?.map φ.object := by
  cases v <;> rfl

@[simp] theorem isSettled_relabel (v : Value) : (v.relabel φ).isSettled = v.isSettled := by
  cases v <;> simp [relabel, isSettled]

/-! ### Equality -/

theorem sameObject_relabel (v w : Value) :
    sameObject (v.relabel φ) (w.relabel φ) = sameObject v w := by
  unfold sameObject
  rw [self?_relabel, self?_relabel]
  cases v.self? with
  | none => rfl
  | some i =>
    cases w.self? with
    | none => rfl
    | some j =>
      -- here it matters that different objects keep different numbers
      show (φ.object i == φ.object j) = (i == j)
      rw [Bool.eq_iff_iff, beq_iff_eq, beq_iff_eq]
      exact φ.injective.eq_iff

theorem sameContent_relabel (v w : Value) :
    sameContent (v.relabel φ) (w.relabel φ) = sameContent v w := by
  cases v with
  | list elements self =>
    cases w with
    | list others _ => cases elements <;> cases others <;> rfl
    | _ => cases elements <;> rfl
  | _ => cases w <;> rfl

/-- Whether two values are the same does not depend on which numbers they have. -/
@[simp] theorem isIdentical_relabel (v w : Value) :
    isIdentical (v.relabel φ) (w.relabel φ) = isIdentical v w := by
  rw [isIdentical, isIdentical, sameObject_relabel, sameContent_relabel]

mutual

@[simp] theorem isAlike_relabel (v w : Value) :
    isAlike (v.relabel φ) (w.relabel φ) = isAlike v w := by
  match v with
  | list elements self =>
    cases w with
    | list others _ =>
      rw [relabel, relabel, isAlike, isAlike]
      exact allAlike_relabelAll elements others
    | _ => exact isIdentical_relabel (list elements self) _
  | number _ _ | string _ | boolean _ | symbol _ | primitive _ _ | compound _ _ _ _ _
  | transformer _ _ _ _ _ => exact isIdentical_relabel _ w

theorem allAlike_relabelAll (vs ws : List Value) :
    allAlike (relabelAll φ vs) (relabelAll φ ws) = allAlike vs ws := by
  match vs, ws with
  | [], [] => rfl
  | [], _ :: _ => rfl
  | _ :: _, [] => rfl
  | v :: vs, w :: ws =>
    rw [relabelAll, relabelAll, allAlike, allAlike, isAlike_relabel, allAlike_relabelAll]

end

/-! ### Settling -/

mutual

/-- Settling gives out numbers and takes none back. -/
theorem le_settle (v : Value) (next : Identity) : next ≤ (v.settle next).2 := by
  match v with
  | list elements none =>
    rw [settle_list]
    exact Nat.le_of_succ_le (le_settleAll elements (next + 1))
  | compound name parameters body env none =>
    rw [settle]
    exact Nat.le_of_succ_le (le_settleAll body (next + 1))
  | number x none => exact Nat.le_succ next
  | primitive action none => exact Nat.le_succ next
  | transformer name literals clauses env none => exact Nat.le_succ next
  | number _ (some _) | list _ (some _) | primitive _ (some _) | compound _ _ _ _ (some _)
  | transformer _ _ _ _ (some _) | string _ | boolean _ | symbol _ =>
    exact Nat.le_of_eq (congrArg Prod.snd (settle_of_isSettled rfl next)).symm

theorem le_settleAll (vs : List Value) (next : Identity) : next ≤ (settleAll vs next).2 := by
  match vs with
  | [] => exact Nat.le_refl next
  | v :: vs => exact Nat.le_trans (le_settle v next) (le_settleAll vs _)

end

end Value

/-- The relabelling takes the numbers from `next` up to `limit` to those that are `offset` higher,
and leaves the procedures with these numbers their names. -/
def Relabelling.Shifts (φ : Relabelling) (offset next limit : Identity) : Prop :=
  ∀ i, next ≤ i → i < limit → φ.object i = i + offset ∧ ∀ name, φ.name i name = name

theorem Relabelling.Shifts.mono {offset next next' limit limit' : Identity}
    {φ : Relabelling} (h : φ.Shifts offset next limit) (hnext : next ≤ next')
    (hlimit : limit' ≤ limit) : φ.Shifts offset next' limit' :=
  fun i hle hlt => h i (Nat.le_trans hnext hle) (Nat.lt_of_lt_of_le hlt hlimit)

namespace Value

variable {φ : Relabelling} {offset : Identity}

mutual

/-- **Settling commutes with a relabelling** that takes each number that is given out to the one
that is given out for it on the other side. -/
theorem settle_relabel (v : Value) (next : Identity)
    (h : φ.Shifts offset next (v.settle next).2) :
    (v.relabel φ).settle (next + offset)
      = ((v.settle next).1.relabel φ, (v.settle next).2 + offset) := by
  match v with
  | list elements none =>
    rw [settle_list] at h ⊢
    -- the list receives its number first, and its elements the numbers after it
    have hlt : next < (settleAll elements (next + 1)).2 := le_settleAll elements (next + 1)
    have helements :=
      settleAll_relabel elements (next + 1) (h.mono (Nat.le_succ next) (Nat.le_refl _))
    obtain ⟨hself, -⟩ := h next (Nat.le_refl _) hlt
    rw [Nat.add_right_comm] at helements
    rw [relabel, Option.map_none, settle_list, helements, relabel, Option.map_some, hself]
  | compound name parameters body env none =>
    rw [settle] at h ⊢
    have hlt : next < (settleAll body (next + 1)).2 := le_settleAll body (next + 1)
    have hbody := settleAll_relabel body (next + 1) (h.mono (Nat.le_succ next) (Nat.le_refl _))
    obtain ⟨hself, hname⟩ := h next (Nat.le_refl _) hlt
    rw [Nat.add_right_comm] at hbody
    rw [relabel, Option.map_none, settle, hbody, relabel, Option.map_some, hself]
    -- a procedure that settles is new and keeps its name
    show (compound name _ _ _ _, _) = (compound (φ.name next name) _ _ _ _, _)
    rw [hname]
  | number x none =>
    obtain ⟨hself, -⟩ := h next (Nat.le_refl _) (Nat.lt_succ_self next)
    show (number x (some (next + offset)), _) = (number x (some (φ.object next)), _)
    rw [hself]
    exact congrArg (Prod.mk _) (Nat.add_right_comm next offset 1)
  | primitive action none =>
    obtain ⟨hself, -⟩ := h next (Nat.le_refl _) (Nat.lt_succ_self next)
    show (primitive action (some (next + offset)), _) = (primitive action (some (φ.object next)), _)
    rw [hself]
    exact congrArg (Prod.mk _) (Nat.add_right_comm next offset 1)
  | transformer name literals clauses env none =>
    obtain ⟨hself, -⟩ := h next (Nat.le_refl _) (Nat.lt_succ_self next)
    show (transformer name literals _ env (some (next + offset)), _)
      = (transformer name literals _ env (some (φ.object next)), _)
    rw [hself]
    exact congrArg (Prod.mk _) (Nat.add_right_comm next offset 1)
  | number _ (some _) | list _ (some _) | primitive _ (some _) | compound _ _ _ _ (some _)
  | transformer _ _ _ _ (some _) | string _ | boolean _ | symbol _ =>
    rw [settle_of_isSettled rfl, settle_of_isSettled rfl]

theorem settleAll_relabel (vs : List Value) (next : Identity)
    (h : φ.Shifts offset next (settleAll vs next).2) :
    settleAll (relabelAll φ vs) (next + offset)
      = (relabelAll φ (settleAll vs next).1, (settleAll vs next).2 + offset) := by
  match vs with
  | [] => rfl
  | v :: vs =>
    have hhead := settle_relabel v next (h.mono (Nat.le_refl _) (le_settleAll vs _))
    have htail := settleAll_relabel vs (v.settle next).2 (h.mono (le_settle v next) (Nat.le_refl _))
    rw [relabelAll, settleAll, hhead]
    dsimp only
    rw [htail]
    rfl

end

mutual

/-- What is new in a value is as long as before. -/
@[simp] theorem newLengths_relabel (v : Value) : (v.relabel φ).newLengths = v.newLengths := by
  match v with
  | list elements none =>
    show (relabelAll φ elements).length :: newLengthsIn (relabelAll φ elements) = _
    rw [newLengthsIn_relabelAll, relabelAll_eq_map, List.length_map]
    rfl
  | list _ (some _) | number _ _ | string _ | boolean _ | symbol _ | primitive _ _
  | compound _ _ _ _ _ | transformer _ _ _ _ _ => rfl

theorem newLengthsIn_relabelAll (vs : List Value) :
    newLengthsIn (relabelAll φ vs) = newLengthsIn vs := by
  match vs with
  | [] => rfl
  | v :: vs =>
    rw [relabelAll, newLengthsIn, newLengthsIn, newLengths_relabel, newLengthsIn_relabelAll]

end

/-! ### Texts -/

mutual

/-- Whether a compound procedure is shown in the text of the value. -/
def showsCompound : Value → Bool
  | compound _ _ _ _ _ => true
  | list elements _ => anyShowsCompound elements
  | _ => false

/-- Whether a compound procedure is shown in the text of one of the values. -/
def anyShowsCompound : List Value → Bool
  | [] => false
  | v :: vs => v.showsCompound || anyShowsCompound vs

end

theorem showsCompound_of_mem {vs : List Value} (h : anyShowsCompound vs = false) {v : Value}
    (hv : v ∈ vs) : v.showsCompound = false := by
  induction vs with
  | nil => cases hv
  | cons w ws ih =>
    obtain ⟨hw, hws⟩ := Bool.or_eq_false_iff.1 h
    rcases List.mem_cons.1 hv with rfl | htail
    · exact hw
    · exact ih hws htail

mutual

/-- Only the texts of compound procedures have names in them that can change. -/
theorem spell_relabel (style : Style) (v : Value) (h : v.showsCompound = false) :
    (v.relabel φ).spell style = v.spell style := by
  match v with
  | list elements self =>
    rw [relabel_list, spell_list, spell_list, List.map_map]
    rw [map_spell_relabel style elements h]
  | compound _ _ _ _ _ => cases h
  | number _ _ | string _ | boolean _ | symbol _ | primitive _ _ | transformer _ _ _ _ _ => rfl

theorem map_spell_relabel (style : Style) (vs : List Value) (h : anyShowsCompound vs = false) :
    vs.map (spell style ∘ relabel φ) = vs.map (spell style) := by
  match vs with
  | [] => rfl
  | v :: vs =>
    obtain ⟨hhead, htail⟩ := Bool.or_eq_false_iff.1 h
    rw [List.map_cons, List.map_cons, map_spell_relabel style vs htail, Function.comp_apply,
      spell_relabel style v hhead]

end

/-- **A text that shows no compound procedure stays the same.** -/
theorem display_relabel {v : Value} (h : v.showsCompound = false) :
    (v.relabel φ).display = v.display :=
  congrArg String.ofList (spell_relabel .displayed v h)

/-! ### The objects in a value -/

mutual

/-- The numbers of the objects in a value. -/
def identities : Value → List Identity
  | number _ self => self.toList
  | list elements self => self.toList ++ identitiesIn elements
  | primitive _ self => self.toList
  | compound _ _ body _ self => self.toList ++ identitiesIn body
  | transformer _ _ clauses _ self => self.toList ++ identitiesInClauses clauses
  | string _ | boolean _ | symbol _ => []

/-- The numbers of the objects in several values. -/
def identitiesIn : List Value → List Identity
  | [] => []
  | v :: vs => v.identities ++ identitiesIn vs

/-- The numbers of the objects in patterns and templates. -/
def identitiesInClauses : List (Value × Value) → List Identity
  | [] => []
  | (pattern, template) :: rest =>
    pattern.identities ++ template.identities ++ identitiesInClauses rest

end

theorem identitiesIn_eq_flatMap (vs : List Value) : identitiesIn vs = vs.flatMap identities := by
  induction vs with
  | nil => rfl
  | cons v vs ih => rw [identitiesIn, List.flatMap_cons, ih]

end Value

/-- The relabellings do the same to the objects with these numbers. -/
def Relabelling.AgreeOn (φ ψ : Relabelling) (identities : List Identity) : Prop :=
  ∀ i ∈ identities, φ.object i = ψ.object i ∧ φ.name i = ψ.name i

namespace Relabelling

variable {φ ψ : Relabelling}

theorem agreeOn_append {is js : List Identity} :
    φ.AgreeOn ψ (is ++ js) ↔ φ.AgreeOn ψ is ∧ φ.AgreeOn ψ js :=
  List.forall_mem_append

theorem AgreeOn.self {self : Option Identity} (h : φ.AgreeOn ψ self.toList) :
    self.map φ.object = self.map ψ.object ∧ φ.rename self = ψ.rename self := by
  cases self with
  | none => exact ⟨rfl, rfl⟩
  | some i =>
    obtain ⟨hobject, hname⟩ := h i (List.mem_singleton_self i)
    exact ⟨congrArg some hobject, hname⟩

end Relabelling

namespace Value

mutual

/-- **Only what happens to the objects in a value matters to it.** -/
theorem relabel_congr {ψ : Relabelling} (v : Value) (h : φ.AgreeOn ψ v.identities) :
    v.relabel φ = v.relabel ψ := by
  match v with
  | number x self => rw [relabel, relabel, h.self.1]
  | primitive action self => rw [relabel, relabel, h.self.1]
  | list elements self =>
    obtain ⟨hself, helements⟩ := Relabelling.agreeOn_append.1 h
    rw [relabel, relabel, hself.self.1, relabelAll_congr elements helements]
  | compound name parameters body env self =>
    obtain ⟨hself, hbody⟩ := Relabelling.agreeOn_append.1 h
    rw [relabel, relabel, hself.self.1, hself.self.2, relabelAll_congr body hbody]
  | transformer name literals clauses env self =>
    obtain ⟨hself, hclauses⟩ := Relabelling.agreeOn_append.1 h
    rw [relabel, relabel, hself.self.1, relabelClauses_congr clauses hclauses]
  | string _ | boolean _ | symbol _ => rfl

theorem relabelAll_congr {ψ : Relabelling} (vs : List Value) (h : φ.AgreeOn ψ (identitiesIn vs)) :
    relabelAll φ vs = relabelAll ψ vs := by
  match vs with
  | [] => rfl
  | v :: vs =>
    obtain ⟨hv, hvs⟩ := Relabelling.agreeOn_append.1 h
    rw [relabelAll, relabelAll, relabel_congr v hv, relabelAll_congr vs hvs]

theorem relabelClauses_congr {ψ : Relabelling} (clauses : List (Value × Value))
    (h : φ.AgreeOn ψ (identitiesInClauses clauses)) :
    relabelClauses φ clauses = relabelClauses ψ clauses := by
  match clauses with
  | [] => rfl
  | (pattern, template) :: rest =>
    obtain ⟨hfirst, hrest⟩ := Relabelling.agreeOn_append.1 h
    obtain ⟨hpattern, htemplate⟩ := Relabelling.agreeOn_append.1 hfirst
    rw [relabelClauses, relabelClauses, relabel_congr pattern hpattern,
      relabel_congr template htemplate, relabelClauses_congr rest hrest]

end

mutual

/-- A value that stays the same has no object whose number changes. -/
theorem object_eq_of_relabel_eq (v : Value) (h : v.relabel φ = v) :
    ∀ i ∈ v.identities, φ.object i = i := by
  -- the number of the value itself, if it has one
  have hown : ∀ {self : Option Identity}, self.map φ.object = self →
      ∀ i ∈ self.toList, φ.object i = i := by
    rintro (_ | j) hself i hi
    · cases hi
    · obtain rfl := List.mem_singleton.1 hi
      exact Option.some.inj hself
  match v with
  | number x self =>
    rw [relabel] at h
    injection h with _ hself
    exact hown hself
  | primitive action self =>
    rw [relabel] at h
    injection h with _ hself
    exact hown hself
  | list elements self =>
    rw [relabel] at h
    injection h with helements hself
    exact List.forall_mem_append.2 ⟨hown hself, object_eq_of_relabelAll_eq elements helements⟩
  | compound name parameters body env self =>
    rw [relabel] at h
    injection h with _ _ hbody _ hself
    exact List.forall_mem_append.2 ⟨hown hself, object_eq_of_relabelAll_eq body hbody⟩
  | transformer name literals clauses env self =>
    rw [relabel] at h
    injection h with _ _ hclauses _ hself
    exact List.forall_mem_append.2 ⟨hown hself, object_eq_of_relabelClauses_eq clauses hclauses⟩
  | string _ | boolean _ | symbol _ =>
    intro i hi
    cases hi

theorem object_eq_of_relabelAll_eq (vs : List Value) (h : relabelAll φ vs = vs) :
    ∀ i ∈ identitiesIn vs, φ.object i = i := by
  match vs with
  | [] =>
    intro i hi
    cases hi
  | v :: vs =>
    rw [relabelAll] at h
    injection h with hv hvs
    exact List.forall_mem_append.2
      ⟨object_eq_of_relabel_eq v hv, object_eq_of_relabelAll_eq vs hvs⟩

theorem object_eq_of_relabelClauses_eq (clauses : List (Value × Value))
    (h : relabelClauses φ clauses = clauses) :
    ∀ i ∈ identitiesInClauses clauses, φ.object i = i := by
  match clauses with
  | [] =>
    intro i hi
    cases hi
  | (pattern, template) :: rest =>
    rw [relabelClauses] at h
    injection h with hfirst hrest
    injection hfirst with hpattern htemplate
    exact List.forall_mem_append.2 ⟨List.forall_mem_append.2
      ⟨object_eq_of_relabel_eq pattern hpattern, object_eq_of_relabel_eq template htemplate⟩,
      object_eq_of_relabelClauses_eq rest hrest⟩

end

end Value

/-- The relabelling that changes nothing. -/
def Relabelling.refl : Relabelling where
  object i := i
  name _ name := name
  injective _ _ h := h

namespace Value

mutual

@[simp] theorem relabel_refl (v : Value) : v.relabel .refl = v := by
  have hself : ∀ self : Option Identity, self.map Relabelling.refl.object = self :=
    fun _ => Option.map_id'
  match v with
  | number x self | primitive action self => rw [relabel, hself]
  | list elements self => rw [relabel, hself, relabelAll_refl]
  | compound name parameters body env self =>
    have hname : Relabelling.refl.rename self name = name := by cases self <;> rfl
    rw [relabel, hself, hname, relabelAll_refl]
  | transformer name literals clauses env self => rw [relabel, hself, relabelClauses_refl]
  | string _ | boolean _ | symbol _ => rfl

theorem relabelAll_refl (vs : List Value) : relabelAll .refl vs = vs := by
  match vs with
  | [] => rfl
  | v :: vs => rw [relabelAll, relabel_refl, relabelAll_refl]

theorem relabelClauses_refl (clauses : List (Value × Value)) :
    relabelClauses .refl clauses = clauses := by
  match clauses with
  | [] => rfl
  | (pattern, template) :: rest =>
    rw [relabelClauses, relabel_refl, relabel_refl, relabelClauses_refl]

end

end Value

end SmallLisp
