import SmallLisp.Proofs.Rules.Written
import SmallLisp.Proofs.Traversal

/-!
# What a pattern stands for

An `Assignment` gives every variable a tree. Under an assignment a pattern stands for certain lists
of forms (`Pattern.Yields`): a variable for its form, a literal for the symbol of its name, a
sublist for a list, and an ellipsis for as many forms as there are repetitions, where each
repetition has an assignment of its own and the variables are given the columns of that table.

Matching is the inverse. `Yields` knows nothing of the bindings that are passed along, merged and
gathered on the way, and the two theorems of this module are all that later ones need of them:

* `exists_yields_of_matchForms` — a match finds an assignment under which the pattern stands for
  the forms, and binds the variables to their trees and nothing else;
* `Yields.matchForms` — forms for which the pattern stands match, with the trees of the assignment.

Both are inductions over how the pattern is written, and need that no variable occurs twice: then
the bindings of a sublist and of its neighbours never overwrite one another.
-/

namespace SmallLisp

/-- A tree for every variable. -/
abbrev Assignment := String → Tree

namespace Pattern

/-- The lists of forms that a pattern stands for under an assignment, where a literal is only met
if `sameBinding` holds of its name. -/
def Yields (sameBinding : String → Bool) : Pattern → Assignment → List Value → Prop
  | .empty, _, forms => forms = []
  | .variable name rest, σ, forms =>
    ∃ form others, forms = form :: others ∧ σ name = .form form ∧ rest.Yields sameBinding σ others
  | .literal name rest, σ, forms =>
    ∃ others, forms = .symbol name :: others ∧ sameBinding name = true
      ∧ rest.Yields sameBinding σ others
  | .sublist head rest, σ, forms =>
    ∃ elements self others, forms = .list elements self :: others
      ∧ head.Yields sameBinding σ elements ∧ rest.Yields sameBinding σ others
  | .repetition repeated _, σ, forms =>
    -- each form is yielded by an assignment of its own, and the columns of these are the sequences
    ∃ rows : List Assignment,
      (∀ name ∈ repeated.vars, σ name = .repeated (rows.map (· name)))
        ∧ List.Forall₂ (fun row form => repeated.Yields sameBinding row [form]) rows forms

variable {sameBinding : String → Bool} {symbols : List String} {elements : List Value} {p : Pattern}

/-- Only the trees of the variables matter. -/
theorem Yields.congr {σ τ : Assignment} {forms : List Value} (h : p.Yields sameBinding σ forms)
    (hστ : ∀ name ∈ p.vars, σ name = τ name) : p.Yields sameBinding τ forms := by
  induction p generalizing forms with
  | empty => exact h
  | «variable» name rest ih =>
    obtain ⟨form, others, rfl, hname, hrest⟩ := h
    refine ⟨form, others, rfl, ?_, ih hrest fun n hn => hστ n (List.mem_append_left _ hn)⟩
    rw [← hστ name (List.mem_append_right _ (List.mem_singleton_self name)), hname]
  | literal name rest ih =>
    obtain ⟨others, rfl, hname, hrest⟩ := h
    exact ⟨others, rfl, hname, ih hrest hστ⟩
  | sublist head rest ihHead ihRest =>
    obtain ⟨elements, self, others, rfl, hhead, hrest⟩ := h
    exact ⟨elements, self, others, rfl,
      ihHead hhead fun n hn => hστ n (List.mem_append_right _ hn),
      ihRest hrest fun n hn => hστ n (List.mem_append_left _ hn)⟩
  -- only the columns are looked at from outside, the rows stay as they are
  | repetition repeated names ih =>
    obtain ⟨rows, hcolumns, hrows⟩ := h
    exact ⟨rows, fun n hn => by rw [← hστ n hn, hcolumns n hn], hrows⟩

/-! ### What a match consists of

One equivalence for each kind of pattern, of the shape of `Yields`. -/

variable {forms : List Value} {bound b : Bindings}

theorem matchForms_empty :
    empty.matchForms sameBinding forms bound = some b ↔ forms = [] ∧ bound = b := by
  cases forms with
  | nil => simp [matchForms]
  | cons form others => simp [matchForms]

theorem matchForms_variable {name : String} {rest : Pattern} :
    (Pattern.variable name rest).matchForms sameBinding forms bound = some b ↔
      ∃ form others, forms = form :: others
        ∧ rest.matchForms sameBinding others (bound.set name (.form form)) = some b := by
  cases forms with
  | nil => simp [matchForms]
  | cons form others => simp [matchForms]

theorem matchForms_literal {name : String} {rest : Pattern} :
    (literal name rest).matchForms sameBinding forms bound = some b ↔
      ∃ others, forms = .symbol name :: others ∧ sameBinding name = true
        ∧ rest.matchForms sameBinding others bound = some b := by
  cases forms with
  | nil => simp [matchForms]
  | cons form others =>
    cases form with
    | symbol other =>
      simp only [matchForms, Value.isSymbolNamed, Bool.and_eq_true, beq_iff_eq]
      constructor
      · intro h
        -- a literal wants the symbol of its name, with the same binding here as at the definition
        split at h
        · next hname => exact ⟨others, by rw [hname.1], hname.2, h⟩
        · cases h
      · rintro ⟨others', heq, hsame, h⟩
        cases heq
        rw [if_pos ⟨rfl, hsame⟩, h]
    | _ => simp [matchForms, Value.isSymbolNamed]

theorem matchForms_sublist {head rest : Pattern} :
    (sublist head rest).matchForms sameBinding forms bound = some b ↔
      ∃ elements self others inner, forms = .list elements self :: others
        ∧ head.matchForms sameBinding elements ∅ = some inner
        ∧ rest.matchForms sameBinding others (bound.setAll inner.entries) = some b := by
  cases forms with
  | nil => simp [matchForms]
  | cons form others =>
    cases form with
    | list elements self =>
      rw [matchForms]
      constructor
      · intro h
        -- the elements are matched from scratch, and what they bind is added
        split at h
        · next inner hinner => exact ⟨elements, self, others, inner, rfl, hinner, h⟩
        · cases h
      · rintro ⟨elements', self', others', inner, heq, hinner, h⟩
        cases heq
        rw [hinner]
        exact h
    | _ => simp [matchForms]

theorem matchForms_repetition {repeated : Pattern} {names : List String} :
    (repetition repeated names).matchForms sameBinding forms bound = some b ↔
      ∃ repetitions,
        List.Forall₂ (fun form row => repeated.matchForms sameBinding [form] ∅ = some row)
          forms repetitions
        ∧ bound.setAll (Bindings.gather names repetitions).entries = b := by
  rw [matchForms]
  constructor
  · intro h
    split at h
    · next repetitions hrepetitions =>
      exact ⟨repetitions, forall₂_of_mapM_some hrepetitions, Option.some.inj h⟩
    · cases h
  · rintro ⟨repetitions, hrepetitions, h⟩
    rw [mapM_some_of_forall₂ hrepetitions]
    exact congrArg some h

/-- Matching repeats no name. -/
theorem nodup_names_matchForms (hbound : bound.names.Nodup)
    (h : p.matchForms sameBinding forms bound = some b) : b.names.Nodup := by
  induction p generalizing forms bound with
  | empty =>
    obtain ⟨-, rfl⟩ := matchForms_empty.1 h
    exact hbound
  | «variable» name rest ih =>
    obtain ⟨form, others, -, hrest⟩ := matchForms_variable.1 h
    exact ih (Table.nodup_names_set hbound name _) hrest
  | literal name rest ih =>
    obtain ⟨others, -, -, hrest⟩ := matchForms_literal.1 h
    exact ih hbound hrest
  -- binding a name again leaves it in its place
  | sublist head rest ihHead ihRest =>
    obtain ⟨_, _, others, inner, -, -, hrest⟩ := matchForms_sublist.1 h
    exact ihRest (Table.nodup_names_setAll hbound inner.entries) hrest
  | repetition repeated names ih =>
    obtain ⟨repetitions, -, rfl⟩ := matchForms_repetition.1 h
    exact Table.nodup_names_setAll hbound _

/-- What a match without bindings around it binds. -/
theorem nodup_names_of_matchForms (h : p.matchForms sameBinding forms ∅ = some b) :
    b.names.Nodup := by
  have hempty : (∅ : Bindings).names.Nodup := List.nodup_nil
  exact nodup_names_matchForms hempty h

/-! ### Bindings and assignments -/

/-- The bindings `b` are the bindings `bound` with the variables of the pattern bound to their
trees. -/
structure Binds (p : Pattern) (σ : Assignment) (bound b : Bindings) : Prop where
  inside : ∀ name ∈ p.vars, b.get? name = some (σ name)
  outside : ∀ name, name ∉ p.vars → b.get? name = bound.get? name

namespace Binds

variable {σ τ : Assignment} {inner : Bindings} {name : String} {rest head repeated : Pattern}

theorem congr (h : p.Binds σ bound b) (hστ : ∀ name ∈ p.vars, σ name = τ name) :
    p.Binds τ bound b where
  inside n hn := by rw [h.inside n hn, hστ n hn]
  outside := h.outside

/-- After a match that began with nothing bound, the variables are bound and nothing else. -/
theorem mem_names_iff (h : p.Binds σ ∅ b) : name ∈ b.names ↔ name ∈ p.vars := by
  rw [Table.mem_names_iff]
  constructor
  · rintro ⟨tree, htree⟩
    refine Decidable.byContradiction fun hname => ?_
    rw [h.outside name hname] at htree
    cases htree
  · exact fun hname => ⟨σ name, h.inside name hname⟩

theorem of_variable {form : Value} (hname : σ name = .form form)
    (h : rest.Binds σ (bound.set name (.form form)) b) :
    (Pattern.variable name rest).Binds σ bound b where
  inside n hn := by
    -- should the rest bind the name again, then its tree is the one that counts
    by_cases hrest : n ∈ rest.vars
    · exact h.inside n hrest
    · rcases List.mem_append.1 hn with hmem | hmem
      · exact absurd hmem hrest
      · obtain rfl := List.mem_singleton.1 hmem
        rw [h.outside n hrest, Table.get?_set, if_pos rfl, hname]
  outside n hn := by
    rw [vars, List.mem_append, List.mem_singleton, not_or] at hn
    rw [h.outside n hn.1, Table.get?_set, if_neg hn.2]

theorem of_sublist (hinner : inner.names.Nodup) (hhead : head.Binds σ ∅ inner)
    (hrest : rest.Binds σ (bound.setAll inner.entries) b) :
    (Pattern.sublist head rest).Binds σ bound b where
  inside n hn := by
    -- what the rest binds wins, and after it what the sublist binds
    by_cases hr : n ∈ rest.vars
    · exact hrest.inside n hr
    · rcases List.mem_append.1 hn with hmem | hmem
      · exact absurd hmem hr
      · rw [hrest.outside n hr, Table.get?_setAll_entries bound hinner, hhead.inside n hmem,
          Option.some_or]
  outside n hn := by
    rw [vars, List.mem_append, not_or] at hn
    rw [hrest.outside n hn.1, Table.get?_setAll_entries bound hinner, hhead.outside n hn.2]
    rfl

/-- The variables of several repetitions, gathered, are bound to the columns of the table of their
assignments. -/
theorem of_repetition {rows : List Assignment} {repetitions : List Bindings}
    (hcolumns : ∀ name ∈ repeated.vars, σ name = .repeated (rows.map (· name)))
    (hrows : List.Forall₂ (fun row r => repeated.Binds row ∅ r) rows repetitions) :
    (Pattern.repetition repeated repeated.vars).Binds σ bound
      (bound.setAll (Bindings.gather repeated.vars repetitions).entries) := by
  have hgather : ∀ n, (Bindings.gather repeated.vars repetitions).get? n
      = if n ∈ repeated.vars then
          some (.repeated (repetitions.map fun r => (r.get? n).getD (.repeated [])))
        else none := Table.get?_ofPairs_map _ _
  have hentries : (Bindings.gather repeated.vars repetitions).names.Nodup :=
    Table.nodup_names_ofPairs _
  constructor
  · -- a name of the repetition: its column is found in what has been gathered
    intro n hn
    replace hn : n ∈ repeated.vars := hn
    -- every repetition binds the name, so the tree that stands in for a missing one is never used
    have hcolumn : repetitions.map (fun r => (r.get? n).getD (.repeated []))
        = rows.map (· n) := by
      clear hcolumns hgather hentries
      induction hrows with
      | nil => rfl
      | cons hrow _ ih =>
        rw [List.map_cons, List.map_cons, ih, hrow.inside n hn, Option.getD_some]
    rw [Table.get?_setAll_entries bound hentries, hgather, if_pos hn, Option.some_or, hcolumn,
      hcolumns n hn]
  · intro n hn
    -- any other name is not in what is added
    replace hn : n ∉ repeated.vars := hn
    rw [Table.get?_setAll_entries bound hentries, hgather, if_neg hn, Option.none_or]

end Binds

/-! ### Matching finds an assignment -/

/-- **A match finds an assignment.** The pattern stands for the forms under it, and the match binds
the variables to their trees. -/
theorem exists_yields_of_matchForms (hw : Written symbols elements p) (hnd : p.vars.Nodup)
    (h : p.matchForms sameBinding forms bound = some b) :
    ∃ σ, p.Yields sameBinding σ forms ∧ p.Binds σ bound b := by
  induction hw generalizing forms bound b with
  | empty =>
    obtain ⟨rfl, rfl⟩ := matchForms_empty.1 h
    exact ⟨fun _ => .repeated [], rfl, nofun, fun _ _ => rfl⟩
  | @«variable» name _ rest _ _ _ ih =>
    rw [vars, List.nodup_append] at hnd
    obtain ⟨form, others, rfl, hrest⟩ := matchForms_variable.1 h
    obtain ⟨σ, hyields, hbinds⟩ := ih hnd.1 hrest
    -- the variable is none of the rest, so the rest does not see its tree
    have hσ : ∀ n ∈ rest.vars, σ n = Function.update σ name (.form form) n := fun n hn =>
      (Function.update_of_ne (hnd.2.2 n hn name (List.mem_singleton_self name)) _ σ).symm
    have hname := Function.update_self name (Tree.form form) σ
    exact ⟨_, ⟨form, others, rfl, hname, hyields.congr hσ⟩, .of_variable hname (hbinds.congr hσ)⟩
  | literal _ _ _ ih =>
    obtain ⟨others, rfl, hname, hrest⟩ := matchForms_literal.1 h
    obtain ⟨σ, hyields, hbinds⟩ := ih hnd hrest
    exact ⟨σ, ⟨others, rfl, hname, hyields⟩, hbinds.inside, hbinds.outside⟩
  | @sublist _ _ _ head rest _ _ ihHead ihRest =>
    rw [vars, List.nodup_append] at hnd
    obtain ⟨elements, self, others, inner, rfl, hhead, hrest⟩ := matchForms_sublist.1 h
    obtain ⟨σ, hyieldsHead, hbindsHead⟩ := ihHead hnd.2.1 hhead
    obtain ⟨τ, hyieldsRest, hbindsRest⟩ := ihRest hnd.1 hrest
    -- no variable is in both parts, so each part keeps its own assignment
    have hσ : ∀ n ∈ head.vars, σ n = if n ∈ head.vars then σ n else τ n :=
      fun n hn => (if_pos hn).symm
    have hτ : ∀ n ∈ rest.vars, τ n = if n ∈ head.vars then σ n else τ n :=
      fun n hn => (if_neg fun hh => hnd.2.2 n hn n hh rfl).symm
    exact ⟨fun n => if n ∈ head.vars then σ n else τ n,
      ⟨elements, self, others, rfl, hyieldsHead.congr hσ, hyieldsRest.congr hτ⟩,
      .of_sublist (nodup_names_of_matchForms hhead) (hbindsHead.congr hσ) (hbindsRest.congr hτ)⟩
  | @repetition _ repeated _ ih =>
    obtain ⟨repetitions, hmatches, rfl⟩ := matchForms_repetition.1 h
    -- one assignment for each repetition, in order
    obtain ⟨rows, hrows, hbinds⟩ := exists_forall₂_of_forall₂ hmatches fun form r hform =>
      ih hnd hform
    exact ⟨fun n => .repeated (rows.map (· n)), ⟨rows, fun _ _ => rfl, hrows.flip⟩,
      .of_repetition (fun _ _ => rfl) hbinds.flip⟩

/-! ### Forms for which the pattern stands match -/

/-- **What a pattern stands for matches it**, and the match recovers the assignment. -/
theorem Yields.matchForms {σ : Assignment} (hw : Written symbols elements p)
    (hnd : p.vars.Nodup) (h : p.Yields sameBinding σ forms) (bound : Bindings) :
    ∃ b, p.matchForms sameBinding forms bound = some b ∧ p.Binds σ bound b := by
  -- by how the pattern is written, for a repetition is matched one form at a time
  induction hw generalizing forms bound σ with
  | empty =>
    obtain rfl := h
    exact ⟨bound, rfl, nofun, fun _ _ => rfl⟩
  | @«variable» name _ rest _ _ _ ih =>
    rw [vars, List.nodup_append] at hnd
    obtain ⟨form, others, rfl, hname, hrest⟩ := h
    obtain ⟨b, hmatch, hbinds⟩ := ih hnd.1 hrest (bound.set name (.form form))
    exact ⟨b, matchForms_variable.2 ⟨form, others, rfl, hmatch⟩, .of_variable hname hbinds⟩
  | literal _ _ _ ih =>
    obtain ⟨others, rfl, hname, hrest⟩ := h
    obtain ⟨b, hmatch, hbinds⟩ := ih hnd hrest bound
    exact ⟨b, matchForms_literal.2 ⟨others, rfl, hname, hmatch⟩, hbinds.inside, hbinds.outside⟩
  | sublist _ _ ihHead ihRest =>
    rw [vars, List.nodup_append] at hnd
    obtain ⟨elements, self, others, rfl, hhead, hrest⟩ := h
    obtain ⟨inner, hmatchHead, hbindsHead⟩ := ihHead hnd.2.1 hhead ∅
    obtain ⟨b, hmatchRest, hbindsRest⟩ := ihRest hnd.1 hrest (bound.setAll inner.entries)
    exact ⟨b, matchForms_sublist.2 ⟨elements, self, others, inner, rfl, hmatchHead, hmatchRest⟩,
      .of_sublist (nodup_names_of_matchForms hmatchHead) hbindsHead hbindsRest⟩
  | @repetition _ repeated _ ih =>
    obtain ⟨rows, hcolumns, hrows⟩ := h
    -- each row gives the match of its form
    obtain ⟨repetitions, hbinds, hmatches⟩ := exists_forall₂_of_forall₂ hrows fun row form hrow =>
      (ih hnd hrow ∅).imp fun _ h => h.symm
    exact ⟨_, matchForms_repetition.2 ⟨repetitions, hmatches, rfl⟩,
      .of_repetition hcolumns hbinds⟩

end Pattern

end SmallLisp
