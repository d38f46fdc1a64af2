import SmallLisp.Rules.Transformer
import SmallLisp.Value.Settle

/-!
# Disciplines

A `Discipline` says what expressions and values may hold: which frames, which names, and, if it is
strict, that expressions hold no procedures and that procedures and transformers have the shape that
the language gives them. `Discipline.Within` spreads that over values, `Discipline.Holds` over
stores.

Evaluation keeps to every discipline. That is proved once, for all of them, in
`Proofs.Discipline.Machine`; each law about what programs can reach or build is the case of a
discipline that says so. Here are the parts that need no evaluator: values settle within a
discipline, and stores are written within it.

Nothing here refers to the size of a store. A discipline knows in advance every frame that is yet to
be made (`Holds.fresh`), so it stays the same during a run.
-/

namespace SmallLisp

/-- What expressions and values may hold. -/
structure Discipline where
  /-- The frames. -/
  Known : FrameId → Prop
  /-- The names. -/
  Name : String → Prop
  /-- Whether expressions and data are kept apart and procedures keep the shape of the language. -/
  strict : Prop
  /-- The evaluator itself brings in some names: the answer of a form that is run for its effect,
  and those of the forms that derived forms stand for. -/
  keyword : ∀ name ∈ ["ok", "if", "begin", "lambda"], Name name

namespace Discipline

/-- What a value is for. -/
inductive Role where
  /-- It may be evaluated. -/
  | code
  /-- It is the value of something. -/
  | data

variable {D : Discipline}

/-- The environments that a discipline knows. -/
def Scope (D : Discipline) (env : Env) : Prop :=
  ∀ id ∈ env, D.Known id

/-- Under a strict discipline procedures are data only. -/
def Free (D : Discipline) (role : Role) : Prop :=
  D.strict → role = .data

/-- The values that keep to a discipline. The body of a procedure and the clauses of a transformer
are code, whatever the procedure or the transformer is. -/
inductive Within (D : Discipline) : Role → Value → Prop where
  | number {role : Role} {x : Float} {self : Option Identity} : Within D role (.number x self)
  | string {role : Role} {text : String} : Within D role (.string text)
  | boolean {role : Role} {b : Bool} : Within D role (.boolean b)
  | symbol {role : Role} {name : String} : D.Name name → Within D role (.symbol name)
  | list {role : Role} {elements : List Value} {self : Option Identity} :
      (∀ v ∈ elements, Within D role v) → Within D role (.list elements self)
  | primitive {role : Role} {action : Action} {self : Option Identity} :
      D.Free role → D.Name action.name → Within D role (.primitive action self)
  | compound {role : Role} {name : Option String} {parameters : List String} {body : List Value}
      {env : Env} {self : Option Identity} :
      D.Free role → (D.strict → parameters.Nodup) → (D.strict → body ≠ []) →
      (∀ n ∈ name, D.Name n) → (∀ n ∈ parameters, D.Name n) →
      (∀ e ∈ body, Within D .code e) → D.Scope env →
      Within D role (.compound name parameters body env self)
  | transformer {role : Role} {name : String} {literals : List String}
      {clauses : List (Value × Value)} {env : Env} {self : Option Identity} :
      D.Free role →
      (D.strict → ∀ p ∈ clauses, ∃ c, Transformer.compileClause literals p.1 = .ok c) →
      D.Name name → (∀ p ∈ clauses, Within D .code p.1) → (∀ p ∈ clauses, Within D .code p.2) →
      D.Scope env → Within D role (.transformer name literals clauses env self)

/-- The expressions that may be evaluated. -/
abbrev Code (D : Discipline) : Value → Prop := D.Within .code

/-- The values that an evaluation may work with. -/
abbrev Data (D : Discipline) : Value → Prop := D.Within .data

namespace Within

variable {role : Role} {v : Value}

/-- What may be evaluated may be a value. -/
theorem data (h : D.Within role v) : D.Data v := by
  induction h with
  | number => exact .number
  | string => exact .string
  | boolean => exact .boolean
  | symbol hname => exact .symbol hname
  | list _ ih => exact .list ih
  | primitive _ hname => exact .primitive (fun _ => rfl) hname
  | compound _ hnodup hbody hname hparameters hcode henv =>
    exact .compound (fun _ => rfl) hnodup hbody hname hparameters hcode henv
  | transformer _ hcompiles hname hpatterns htemplates henv =>
    exact .transformer (fun _ => rfl) hcompiles hname hpatterns htemplates henv

theorem of_list {elements : List Value} {self : Option Identity}
    (h : D.Within role (.list elements self)) : ∀ v ∈ elements, D.Within role v := by
  cases h with
  | list helements => exact helements

theorem of_symbol {name : String} (h : D.Within role (.symbol name)) : D.Name name := by
  cases h with
  | symbol hname => exact hname

theorem ofList {elements : List Value} (h : ∀ v ∈ elements, D.Within role v) :
    D.Within role (.ofList elements) := .list h

/-- The answer of a form that is run for its effect. -/
theorem ok : D.Within role .ok :=
  .symbol (D.keyword _ (by simp))

end Within

/-! ### Settling -/

end Discipline

namespace Value

/-- A settled element is one of the elements, settled. -/
theorem mem_settleAll {vs : List Value} {next : Identity} {v : Value}
    (h : v ∈ (settleAll vs next).1) : ∃ w ∈ vs, ∃ middle, v = (w.settle middle).1 := by
  induction vs generalizing next with
  | nil => cases h
  | cons w vs ih =>
    rw [settleAll] at h
    rcases List.mem_cons.1 h with rfl | hrest
    · exact ⟨w, List.mem_cons_self, next, rfl⟩
    · obtain ⟨u, hu, middle, rfl⟩ := ih hrest
      exact ⟨u, List.mem_cons_of_mem w hu, middle, rfl⟩

theorem length_settleAll (vs : List Value) (next : Identity) :
    (settleAll vs next).1.length = vs.length := by
  induction vs generalizing next with
  | nil => rfl
  | cons w vs ih => rw [settleAll, List.length_cons, List.length_cons, ih]

theorem settle_compound (name : Option String) (parameters : List String) (body : List Value)
    (env : Env) (next : Identity) :
    ((compound name parameters body env none).settle next).1
      = compound name parameters (settleAll body (next + 1)).1 env (some next) := by
  rw [settle]

end Value

namespace Discipline

variable {D : Discipline} {role : Role}

/-- **Settling keeps to every discipline.** -/
theorem Within.settle {v : Value} (h : D.Within role v) (next : Identity) :
    D.Within role (v.settle next).1 := by
  -- what has an identity stays as it is; what has none gets one, and so do its parts
  induction h generalizing next with
  | @number _ x self =>
    cases self with
    | none => rw [Value.settle]; exact .number
    | some _ => rw [Value.settle_of_isSettled rfl]; exact .number
  | string => rw [Value.settle_string]; exact .string
  | boolean => rw [Value.settle_boolean]; exact .boolean
  | symbol hname => rw [Value.settle_symbol]; exact .symbol hname
  | @list _ elements self helements ih =>
    cases self with
    | none =>
      rw [Value.settle_list]
      refine .list fun v hv => ?_
      obtain ⟨w, hw, middle, rfl⟩ := Value.mem_settleAll hv
      exact ih w hw middle
    | some _ =>
      rw [Value.settle_of_isSettled rfl]
      exact .list helements
  | @primitive _ action self hfree hname =>
    cases self with
    | none => rw [Value.settle]; exact .primitive hfree hname
    | some _ => rw [Value.settle_of_isSettled rfl]; exact .primitive hfree hname
  | @compound _ name parameters body env self hfree hnodup hbody hname hparameters hcode henv ih =>
    cases self with
    | none =>
      rw [Value.settle_compound]
      refine .compound hfree hnodup (fun hstrict => ?_) hname hparameters (fun e he => ?_) henv
      · rw [Ne, ← List.length_eq_zero_iff, Value.length_settleAll, List.length_eq_zero_iff]
        exact hbody hstrict
      · obtain ⟨w, hw, middle, rfl⟩ := Value.mem_settleAll he
        exact ih w hw middle
    | some _ =>
      rw [Value.settle_of_isSettled rfl]
      exact .compound hfree hnodup hbody hname hparameters hcode henv
  | @transformer _ name literals clauses env self hfree hcompiles hname hpatterns htemplates henv =>
    cases self with
    | none =>
      rw [Value.settle]
      exact .transformer hfree hcompiles hname hpatterns htemplates henv
    | some _ =>
      rw [Value.settle_of_isSettled rfl]
      exact .transformer hfree hcompiles hname hpatterns htemplates henv

/-! ### Stores -/

/-- The stores that keep to a discipline: of the frames that it knows, it knows everything that is
bound in them. -/
structure Holds (D : Discipline) (s : Store) : Prop where
  /-- Every frame that is yet to be made is known. -/
  fresh : ∀ id, s.frames.size ≤ id → D.Known id
  /-- Known frames bind names of the discipline. -/
  named : ∀ id, D.Known id → ∀ name ∈ (s.frame id).names, D.Name name
  /-- Known frames bind values of the discipline. -/
  bound : ∀ id, D.Known id → ∀ name v, (s.frame id).get? name = some (some v) → D.Data v

namespace Holds

variable {s : Store}

/-- A name that is visible where the discipline looks has a value of the discipline. -/
theorem find (h : D.Holds s) {env : Env} (henv : D.Scope env) {name : String} {v : Value}
    (hfind : s.find env name = some v) : D.Data v := by
  obtain ⟨id, hid, hvalue⟩ := Option.bind_eq_some_iff.1 hfind
  refine h.bound id (henv id (Store.of_resolve_eq_some hid).1) name v ?_
  exact Option.join_eq_some_iff.1 hvalue

/-- Writing a value of the discipline under a name of the discipline. -/
theorem setSlot (h : D.Holds s) {id : FrameId} {name : String} (hname : D.Name name)
    {v : Value} (hv : D.Data v) : D.Holds (s.setSlot id name (some v)) where
  fresh other hother := h.fresh other (by rwa [Store.size_setSlot] at hother)
  named other hother n hn := by
    -- only a name that was there before or the written one can be there now
    obtain ⟨entry, hentry⟩ := (Table.mem_names_iff _ n).1 hn
    rcases Store.get?_frame_setSlot s hentry with hold | ⟨-, heq, -⟩
    · exact h.named other hother n ((Table.mem_names_iff _ n).2 ⟨entry, hold⟩)
    · rw [heq]
      exact hname
  bound other hother n w hw := by
    rcases Store.get?_frame_setSlot s hw with hold | ⟨-, -, heq⟩
    · exact h.bound other hother n w hold
    · cases heq
      exact hv

/-- Making a frame that binds names of the discipline to values of the discipline. -/
theorem push (h : D.Holds s) (env : Env) {f : Frame} (hnames : ∀ name ∈ f.names, D.Name name)
    (hvalues : ∀ name v, f.get? name = some (some v) → D.Data v) :
    D.Holds (s.push env f).2 where
  fresh id hid := h.fresh id (by rw [Store.size_push] at hid; exact Nat.le_of_succ_le hid)
  named id hid name hname := by
    -- an old frame, the new one, or none
    rcases Nat.lt_trichotomy id s.frames.size with hlt | rfl | hgt
    · rw [Store.frame_push s env f hlt] at hname
      exact h.named id hid name hname
    · rw [Store.frame_push_size] at hname
      exact hnames name hname
    · rw [Store.frame_of_size_le _ (by rw [Store.size_push]; exact hgt)] at hname
      cases hname
  bound id hid name v hv := by
    rcases Nat.lt_trichotomy id s.frames.size with hlt | rfl | hgt
    · rw [Store.frame_push s env f hlt] at hv
      exact h.bound id hid name v hv
    · rw [Store.frame_push_size] at hv
      exact hvalues name v hv
    · rw [Store.frame_of_size_le _ (by rw [Store.size_push]; exact hgt)] at hv
      cases hv

end Holds

/-- The new frame is known before it is made. -/
theorem scope_push {s : Store} (h : D.Holds s) {env : Env} (henv : D.Scope env) (f : Frame) :
    D.Scope (s.push env f).1 := by
  intro id hid
  rcases List.mem_cons.1 hid with rfl | hmem
  · exact h.fresh _ (Nat.le_refl _)
  · exact henv id hmem

end Discipline

end SmallLisp
