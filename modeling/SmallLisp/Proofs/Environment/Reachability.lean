import SmallLisp.Proofs.Discipline.Basic

/-!
# What can be reached

A value mentions the frames of the environments that are captured in it, at any depth of its lists,
of the bodies of its procedures and of the clauses of its transformers (`Value.Mentions`). A frame
can be reached from some others if it is one of them, or if a value that is bound in a frame that
can be reached mentions it (`Store.Reaches`).

Mentioning known frames only is the discipline `Discipline.frames`, under which every name is
allowed and code and data are one:

* `within_frames` — a value that mentions known frames only keeps to it;
* `Holds.known_of_reaches` — in a store of which it holds, or of which any other discipline holds,
  only known frames can be reached from known frames.
-/

namespace SmallLisp

/-- The values that mention a frame. -/
inductive Value.Mentions (id : FrameId) : Value → Prop where
  | element {elements : List Value} {self : Option Identity} {v : Value} :
      v ∈ elements → Mentions id v → Mentions id (.list elements self)
  | scope {name : Option String} {parameters : List String} {body : List Value} {env : Env}
      {self : Option Identity} : id ∈ env → Mentions id (.compound name parameters body env self)
  | body {name : Option String} {parameters : List String} {body : List Value} {env : Env}
      {self : Option Identity} {e : Value} :
      e ∈ body → Mentions id e → Mentions id (.compound name parameters body env self)
  | definition {name : String} {literals : List String} {clauses : List (Value × Value)} {env : Env}
      {self : Option Identity} :
      id ∈ env → Mentions id (.transformer name literals clauses env self)
  | pattern {name : String} {literals : List String} {clauses : List (Value × Value)} {env : Env}
      {self : Option Identity} {p : Value × Value} :
      p ∈ clauses → Mentions id p.1 → Mentions id (.transformer name literals clauses env self)
  | template {name : String} {literals : List String} {clauses : List (Value × Value)} {env : Env}
      {self : Option Identity} {p : Value × Value} :
      p ∈ clauses → Mentions id p.2 → Mentions id (.transformer name literals clauses env self)

/-- The frames that can be reached from those of which `root` holds. -/
inductive Store.Reaches (s : Store) (root : FrameId → Prop) : FrameId → Prop where
  | root {id : FrameId} : root id → Reaches s root id
  | bound {id other : FrameId} {name : String} {v : Value} :
      Reaches s root id → (s.frame id).get? name = some (some v) → v.Mentions other →
      Reaches s root other

namespace Discipline

/-- The discipline of mentioning known frames only. -/
def frames (Known : FrameId → Prop) : Discipline where
  Known := Known
  Name _ := True
  strict := False
  keyword _ _ := trivial

variable {Known : FrameId → Prop}

mutual

/-- A value that mentions known frames only keeps to the discipline. -/
theorem within_frames {role : Role} {v : Value} (h : ∀ id, v.Mentions id → Known id) :
    (frames Known).Within role v := by
  match v with
  | .number _ _ => exact .number
  | .string _ => exact .string
  | .boolean _ => exact .boolean
  | .symbol _ => exact .symbol trivial
  | .list elements _ => exact .list (all_within_frames fun v hv id hid => h id (.element hv hid))
  | .primitive _ _ => exact .primitive nofun trivial
  -- in a procedure frames are mentioned by its environment and its body, in a transformer also by
  -- its clauses
  | .compound _ _ body env _ =>
    exact .compound nofun nofun nofun (fun _ _ => trivial) (fun _ _ => trivial)
      (all_within_frames fun v hv id hid => h id (.body hv hid)) fun id hid => h id (.scope hid)
  | .transformer _ _ clauses env _ =>
    have hclauses : ∀ p ∈ clauses, (frames Known).Code p.1 ∧ (frames Known).Code p.2 :=
      all_clauses_within_frames (fun p hp id hid => h id (.pattern hp hid))
        fun p hp id hid => h id (.template hp hid)
    exact .transformer nofun nofun trivial (fun p hp => (hclauses p hp).1)
      (fun p hp => (hclauses p hp).2) fun id hid => h id (.definition hid)

theorem all_within_frames {role : Role} {vs : List Value}
    (h : ∀ v ∈ vs, ∀ id, v.Mentions id → Known id) :
    ∀ v ∈ vs, (frames Known).Within role v := by
  match vs with
  | [] => nofun
  | v :: vs =>
    obtain ⟨hv, hvs⟩ := List.forall_mem_cons.1 h
    exact List.forall_mem_cons.2 ⟨within_frames hv, all_within_frames hvs⟩

theorem all_clauses_within_frames {clauses : List (Value × Value)}
    (hpatterns : ∀ p ∈ clauses, ∀ id, p.1.Mentions id → Known id)
    (htemplates : ∀ p ∈ clauses, ∀ id, p.2.Mentions id → Known id) :
    ∀ p ∈ clauses, (frames Known).Code p.1 ∧ (frames Known).Code p.2 := by
  match clauses with
  | [] => nofun
  | (pattern, template) :: clauses =>
    obtain ⟨hpattern, hpatterns⟩ := List.forall_mem_cons.1 hpatterns
    obtain ⟨htemplate, htemplates⟩ := List.forall_mem_cons.1 htemplates
    have hhere : (frames Known).Code pattern ∧ (frames Known).Code template :=
      ⟨within_frames hpattern, within_frames htemplate⟩
    exact List.forall_mem_cons.2 ⟨hhere, all_clauses_within_frames hpatterns htemplates⟩

end

/-- A value of any discipline mentions frames that the discipline knows. -/
theorem Within.known {D : Discipline} {role : Role} {v : Value} (h : D.Within role v) {id : FrameId}
    (hid : v.Mentions id) : D.Known id := by
  -- each way of mentioning a frame leads to a part that is in order
  induction h with
  | number | string | boolean | symbol _ | primitive _ _ => cases hid
  | list _ ih =>
    cases hid with
    | element hv hmentions => exact ih _ hv hmentions
  | compound _ _ _ _ _ _ henv ih =>
    cases hid with
    | scope hmem => exact henv id hmem
    | body he hmentions => exact ih _ he hmentions
  | transformer _ _ _ _ _ henv ihPatterns ihTemplates =>
    cases hid with
    | definition hmem => exact henv id hmem
    | pattern hp hmentions => exact ihPatterns _ hp hmentions
    | template hp hmentions => exact ihTemplates _ hp hmentions

/-- **There is no way out of a discipline**: what can be reached from known frames is known. -/
theorem Holds.known_of_reaches {D : Discipline} {s : Store} (hs : D.Holds s)
    {root : FrameId → Prop} (hroot : ∀ id, root id → D.Known id) {id : FrameId}
    (hid : s.Reaches root id) : D.Known id := by
  induction hid with
  | root h => exact hroot _ h
  | bound _ hv hmentions ih => exact (hs.bound _ ih _ _ hv).known hmentions

end Discipline

end SmallLisp
