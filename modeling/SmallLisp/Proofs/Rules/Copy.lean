import SmallLisp.Proofs.Rules.Assignment
import SmallLisp.Proofs.Value.Plain

/-!
# Patterns as templates

A pattern is written with the same signs as a template, so the list that was compiled can also be
instantiated. This module says what comes out: the forms for which the pattern stands, with new
lists in place of its sublists (`Yields.instantiateAll`).

The induction is over how the pattern is written, for all bindings that give its variables their
trees. That is what makes the case of an ellipsis go through: each copy is made under bindings of
its own (`forall₂_rows`), which keep everything that was bound around the ellipsis.
-/

namespace SmallLisp

namespace Template

/-! ### The symbols of a template -/

mutual

theorem mem_symbolsFrom (seen : List String) (v : Value) (name : String) :
    name ∈ symbolsFrom seen v ↔ name ∈ seen ∨ name ∈ symbolsFrom [] v := by
  match v with
  | .symbol other =>
    -- a symbol that was seen is not listed again, but it is in the list
    by_cases hseen : other ∈ seen
    · simp only [symbolsFrom, List.contains_iff_mem, hseen, if_true, List.not_mem_nil, if_false,
        List.nil_append, List.mem_singleton]
      exact ⟨Or.inl, fun h => h.elim id fun e => e ▸ hseen⟩
    · simp [symbolsFrom, hseen]
  | .list elements _ =>
    rw [symbolsFrom, symbolsFrom]
    exact mem_symbolsFromAll seen elements name
  | .number _ _ | .string _ | .boolean _ | .primitive _ _ | .compound _ _ _ _ _
  | .transformer _ _ _ _ _ => simp [symbolsFrom]

theorem mem_symbolsFromAll (seen : List String) (vs : List Value) (name : String) :
    name ∈ symbolsFromAll seen vs ↔ name ∈ seen ∨ name ∈ symbolsFromAll [] vs := by
  match vs with
  | [] => simp [symbolsFromAll]
  | v :: vs =>
    rw [symbolsFromAll, mem_symbolsFromAll, mem_symbolsFrom, symbolsFromAll,
      mem_symbolsFromAll (symbolsFrom [] v) vs, or_assoc]

end

@[simp] theorem symbolsFromAll_nil : symbolsFromAll [] [] = [] := rfl

/-- The symbols of a list are those of its first element and of the others. -/
theorem mem_symbolsFromAll_cons (v : Value) (vs : List Value) (name : String) :
    name ∈ symbolsFromAll [] (v :: vs) ↔ name ∈ symbolsFrom [] v ∨ name ∈ symbolsFromAll [] vs := by
  rw [symbolsFromAll, mem_symbolsFromAll]

theorem mem_symbolsFrom_symbol (other name : String) :
    name ∈ symbolsFrom [] (.symbol other) ↔ name = other := by
  simp [symbolsFrom]

theorem mem_symbolsFrom_list (elements : List Value) (self : Option Identity) (name : String) :
    name ∈ symbolsFrom [] (.list elements self) ↔ name ∈ symbolsFromAll [] elements := by
  rw [symbolsFrom]

/-! ### One repetition after the other -/

/-- **The bindings of each repetition.** Where the sequences are the columns of a table of
assignments, row after row binds the names of the sequences to the trees of that row and leaves
every other name as it is. -/
theorem forall₂_rows {assignments : List Assignment} {sequences : List (String × List Tree)}
    (h : ∀ p ∈ sequences, p.2 = assignments.map (· p.1)) (b : Bindings) :
    List.Forall₂
      (fun row r => ∀ name, r.get? name
        = if name ∈ sequences.map Prod.fst then some (row name) else b.get? name)
      assignments (rows sequences assignments.length b) := by
  induction sequences with
  | nil =>
    clear h
    induction assignments with
    | nil => exact .nil
    | cons row _ ih => exact .cons (fun _ => rfl) ih
  | cons p others ih =>
    have hothers := ih fun q hq => h q (List.mem_cons_of_mem p hq)
    have hcolumn := h p List.mem_cons_self
    rw [rows, List.foldr_cons, hcolumn]
    rw [rows] at hothers
    -- the columns to the right are done; what is left is one entry for each row
    clear h ih hcolumn
    generalize List.foldr _ _ others = inner at hothers
    induction hothers with
    | nil => exact .nil
    | @cons row r _ _ hrow _ ih =>
      refine .cons (fun name => ?_) ih
      rw [Table.get?_set, hrow name, List.map_cons]
      -- the name of this column has its entry, any other is as in the rows so far
      by_cases hname : name = p.1
      · rw [if_pos hname, if_pos (List.mem_cons.2 (Or.inl hname)), hname]
      · rw [if_neg hname]
        simp only [List.mem_cons, hname, false_or]

/-- The variables of an element that are repeated, with their columns. -/
theorem repeatedAmong_eq {names vars : List String} {assignments : List Assignment} {b : Bindings}
    (hvars : ∀ name ∈ names, name ∈ vars →
      b.get? name = some (.repeated (assignments.map (· name))))
    (hothers : ∀ name ∈ names, name ∉ vars → ∀ trees, b.get? name ≠ some (.repeated trees)) :
    repeatedAmong names b
      = (names.filter (· ∈ vars)).map fun name => (name, assignments.map (· name)) := by
  induction names with
  | nil => rfl
  | cons name names ih =>
    have ih' := ih (fun n hn => hvars n (List.mem_cons_of_mem name hn))
      (fun n hn => hothers n (List.mem_cons_of_mem name hn))
    rw [repeatedAmong] at ih' ⊢
    by_cases hname : name ∈ vars
    · rw [List.filterMap_cons, hvars name List.mem_cons_self hname,
        List.filter_cons_of_pos (by simpa using hname), List.map_cons, ih']
    · rw [List.filterMap_cons, List.filter_cons_of_neg (by simpa using hname), ← ih']
      -- a name that is not a variable is not bound to a sequence, and is left out
      split
      · rfl
      · next hsome =>
        split at hsome
        · next trees heq => exact absurd heq (hothers name List.mem_cons_self hname trees)
        · cases hsome

/-- **The repetitions of an element** whose repeated variables are bound to the columns of a table
of assignments are the rows of that table, provided that the element has such a variable. -/
theorem repetitions_eq_ok {names vars : List String} {assignments : List Assignment} {b : Bindings}
    (hvars : ∀ name ∈ names, name ∈ vars →
      b.get? name = some (.repeated (assignments.map (· name))))
    (hothers : ∀ name ∈ names, name ∉ vars → ∀ trees, b.get? name ≠ some (.repeated trees))
    (hsome : ∃ name ∈ names, name ∈ vars) :
    ∃ bindings, repetitions names b = .ok bindings
      ∧ List.Forall₂
          (fun row r => ∀ name, r.get? name
            = if name ∈ names ∧ name ∈ vars then some (row name) else b.get? name)
          assignments bindings := by
  have heq := repeatedAmong_eq hvars hothers
  have hcolumns : ∀ p ∈ (names.filter (· ∈ vars)).map fun name => (name, assignments.map (· name)),
      p.2 = assignments.map (· p.1) := by
    intro p hp
    obtain ⟨name, -, rfl⟩ := List.mem_map.1 hp
    rfl
  have hfst : ((names.filter (· ∈ vars)).map fun name => (name, assignments.map (· name))).map
      Prod.fst = names.filter (· ∈ vars) := by
    rw [List.map_map]
    exact List.map_id _
  refine ⟨rows (repeatedAmong names b) assignments.length b, ?_, ?_⟩
  · rw [repetitions]
    split
    · next hnil =>
      -- there is a variable, and it is bound to a sequence
      obtain ⟨name, hmem, hvar⟩ := hsome
      rw [hnil] at heq
      have := List.map_eq_nil_iff.1 heq.symm
      exact absurd hvar (by simpa using List.filter_eq_nil_iff.1 this name hmem)
    · next first others hcons =>
      -- all sequences are columns of one table, so they have equal lengths
      have hlength : ∀ p ∈ first :: others, p.2.length = assignments.length := by
        intro p hp
        rw [hcolumns p (by rw [← heq, hcons]; exact hp), List.length_map]
      have hfirst := hlength first List.mem_cons_self
      have hall : others.all (·.2.length == first.2.length) = true := by
        rw [List.all_eq_true]
        intro p hp
        rw [beq_iff_eq, hfirst, hlength p (List.mem_cons_of_mem first hp)]
      rw [if_pos hall, hcons, hfirst]
  · have hrows := forall₂_rows (heq ▸ hcolumns) b
    rw [heq, hfst] at hrows
    rw [heq]
    refine hrows.imp fun row r hrow name => ?_
    rw [hrow name]
    simp only [List.mem_filter, decide_eq_true_eq]

/-! ### Elements of a template -/

/-- The copies of an element that a number of ellipses follow. -/
def elementCopies (element : Value) : Nat → Bindings → Except SyntaxFault (List Value)
  | 0, b => (instantiate element b).map ([·])
  | more + 1, b => copies (instantiate element) (symbolsFrom [] element) more b

/-- The short way for a single variable is no exception. -/
theorem elementCopies_eq (element : Value) (count : Nat) (b : Bindings) :
    elementCopies element count b
      = match count, element with
        | 0, _ => (instantiate element b).map ([·])
        | 1, .symbol name => variableCopies name b
        | more + 1, _ => copies (instantiate element) (symbolsFrom [] element) more b := by
  -- only a symbol under exactly one ellipsis is treated on its own
  match count with
  | 0 => rfl
  | 1 =>
    cases element with
    | symbol name => exact copies_symbol name b
    | _ => rfl
  | more + 2 => cases element <;> rfl

/-- After an element its ellipses are passed over; any other element of a list is copied as often as
the ellipses after it say, before those that follow. -/
theorem instantiateAll_cons (after : Bool) (element : Value) (rest : List Value) (b : Bindings) :
    instantiateAll after (element :: rest) b
      = if after && element.isEllipsis then instantiateAll true rest b
        else elementCopies element (leadingEllipses rest) b
          >>= fun here => (instantiateAll true rest b).map (here ++ ·) := by
  rw [instantiateAll.eq_def]
  by_cases hskip : (after && element.isEllipsis) = true
  · simp only [hskip, if_true]
  · simp only [hskip, Bool.false_eq_true, if_false]
    -- the element fails or gives its copies; what is in front of the rest is the same
    split
    · next fault hhere =>
      rw [(elementCopies_eq element (leadingEllipses rest) b).trans hhere]
      rfl
    · next here hhere =>
      rw [(elementCopies_eq element (leadingEllipses rest) b).trans hhere]
      rfl

/-- The copies of a list are those of its first element and then those of the others. -/
theorem instantiateAll_element {element : Value} (hfirst : element.isEllipsis = false)
    (after : Bool) (rest : List Value) (b : Bindings) :
    instantiateAll after (element :: rest) b
      = elementCopies element (leadingEllipses rest) b
        >>= fun here => (instantiateAll true rest b).map (here ++ ·) := by
  rw [instantiateAll_cons, hfirst, Bool.and_false, if_neg Bool.false_ne_true]

/-- The copy of a list with a single element has the copy of that element. -/
theorem instantiate_of_instantiateAll_singleton {element : Value}
    (hfirst : element.isEllipsis = false) {after : Bool} {b : Bindings} {vs : List Value}
    (h : instantiateAll after [element] b = .ok vs) :
    ∃ v, instantiate element b = .ok v ∧ vs = [v] := by
  have hnone : leadingEllipses [] = 0 := rfl
  rw [instantiateAll_element hfirst, hnone, elementCopies] at h
  obtain ⟨here, hhere, hrest⟩ := bind_eq_ok_iff.1 h
  obtain ⟨v, hv, rfl⟩ := map_eq_ok_iff.1 hhere
  rw [instantiateAll] at hrest
  cases hrest
  exact ⟨v, hv, rfl⟩

/-- After an element its ellipses are passed over. -/
theorem instantiateAll_replicate (count : Nat) (b : Bindings) :
    instantiateAll true (List.replicate count (.symbol ellipsis)) b = .ok [] := by
  induction count with
  | zero => rw [List.replicate_zero, instantiateAll]
  | succ count ih =>
    rw [List.replicate_succ, instantiateAll_cons, if_pos (by simp [Value.isEllipsis_symbol]), ih]

theorem instantiateAll_ellipsis (b : Bindings) :
    instantiateAll true [.symbol ellipsis] b = .ok [] :=
  instantiateAll_replicate 1 b

theorem leadingEllipses_replicate (count : Nat) :
    leadingEllipses (List.replicate count (.symbol ellipsis)) = count := by
  simp [leadingEllipses, Value.isEllipsis_symbol]

theorem leadingEllipses_ellipsis : leadingEllipses [.symbol ellipsis] = 1 :=
  leadingEllipses_replicate 1

end Template

namespace Pattern

open Template

variable {sameBinding : String → Bool} {symbols : List String} {elements : List Value} {p : Pattern}

/-- Whatever is written in a pattern is a variable, a literal or an ellipsis. -/
theorem Written.of_mem_symbols (h : Written symbols elements p) {name : String}
    (hname : name ∈ symbolsFromAll [] elements) :
    name ∈ p.vars ∨ name ∈ symbols ∨ name = ellipsis := by
  induction h with
  | empty => cases hname
  | «variable» _ _ _ ih =>
    rcases (mem_symbolsFromAll_cons _ _ _).1 hname with hhere | hrest
    · obtain rfl := (mem_symbolsFrom_symbol _ _).1 hhere
      exact .inl (List.mem_append_right _ (List.mem_singleton_self _))
    · exact (ih hrest).imp_left (List.mem_append_left _)
  | literal hliteral _ _ ih =>
    rcases (mem_symbolsFromAll_cons _ _ _).1 hname with hhere | hrest
    · obtain rfl := (mem_symbolsFrom_symbol _ _).1 hhere
      exact .inr (.inl hliteral)
    · exact ih hrest
  | sublist _ _ ihHead ihRest =>
    rcases (mem_symbolsFromAll_cons _ _ _).1 hname with hhere | hrest
    · exact (ihHead ((mem_symbolsFrom_list _ _ _).1 hhere)).imp_left (List.mem_append_right _)
    · exact (ihRest hrest).imp_left (List.mem_append_left _)
  | repetition _ ih =>
    rcases (mem_symbolsFromAll_cons _ _ _).1 hname with hhere | hrest
    · exact ih ((mem_symbolsFromAll_cons _ _ _).2 (.inl hhere))
    · -- behind a repeated element stands the ellipsis and nothing else
      rcases (mem_symbolsFromAll_cons _ _ _).1 hrest with hdots | hnil
      · exact .inr (.inr ((mem_symbolsFrom_symbol _ _).1 hdots))
      · cases hnil

/-- Every variable is written somewhere in the pattern. -/
theorem Written.mem_symbols (h : Written symbols elements p) {name : String}
    (hname : name ∈ p.vars) : name ∈ symbolsFromAll [] elements := by
  induction h with
  | empty => cases hname
  | «variable» _ _ _ ih =>
    rw [mem_symbolsFromAll_cons, mem_symbolsFrom_symbol]
    -- the variable is the element itself or one of the rest
    rcases List.mem_append.1 hname with hrest | hhere
    · exact .inr (ih hrest)
    · exact .inl (List.mem_singleton.1 hhere)
  | literal _ _ _ ih =>
    rw [mem_symbolsFromAll_cons]
    exact .inr (ih hname)
  | sublist _ _ ihHead ihRest =>
    rw [mem_symbolsFromAll_cons, mem_symbolsFrom_list]
    rcases List.mem_append.1 hname with hrest | hhead
    · exact .inr (ihRest hrest)
    · exact .inl (ihHead hhead)
  | repetition _ ih =>
    rw [mem_symbolsFromAll_cons]
    rcases (mem_symbolsFromAll_cons _ _ _).1 (ih hname) with hhere | hnil
    · exact .inl hhere
    · cases hnil

/-- **A pattern instantiates to the forms for which it stands.** Under bindings that give its
variables their trees, and bind neither a literal nor the ellipsis, the list that a pattern is
written as has a copy; the copy is the forms up to the identity of lists, and the pattern stands
for the copy too. -/
theorem Yields.instantiateAll {σ : Assignment} {forms : List Value} {b : Bindings}
    (hw : Written symbols elements p) (hvaried : p.Varied) (h : p.Yields sameBinding σ forms)
    (hvars : ∀ name ∈ p.vars, b.get? name = some (σ name))
    (hfree : ∀ name, name ∈ symbols ∨ name = ellipsis → b.get? name = none) (after : Bool) :
    ∃ vs, Template.instantiateAll after elements b = .ok vs
      ∧ vs.map Value.plain = forms.map Value.plain ∧ p.Yields sameBinding σ vs := by
  -- The pattern is its own template, so both follow how it is written: what an element yields is
  -- what its copy is.
  induction hw generalizing forms b σ after with
  | empty =>
    obtain rfl := h
    exact ⟨[], by rw [Template.instantiateAll], rfl, rfl⟩
  | @«variable» name _ rest hliteral hdots hrest ih =>
    obtain ⟨form, others, rfl, hname, hothers⟩ := h
    obtain ⟨vs, hvs, hplain, hyields⟩ := ih hvaried hothers
      (fun n hn => hvars n (List.mem_append_left _ hn)) hfree true
    -- a variable is bound to the form it yields
    have hhere : b.get? name = some (.form form) := by
      rw [hvars name (List.mem_append_right _ (List.mem_singleton_self name)), hname]
    have hcopy : instantiate (.symbol name) b = .ok form := by
      rw [instantiate, hhere]
    have hfirst : (Value.symbol name).isEllipsis = false := by
      simpa [Value.isEllipsis_symbol] using hdots
    refine ⟨form :: vs, ?_, ?_, form, vs, rfl, hname, hyields⟩
    · rw [instantiateAll_element hfirst, hrest.leadingEllipses_eq_zero, elementCopies, hcopy, hvs]
      rfl
    · rw [List.map_cons, List.map_cons, hplain]
  -- a literal is not bound, so it stands for itself
  | @literal name _ rest hliteral hdots hrest ih =>
    obtain ⟨others, rfl, hname, hothers⟩ := h
    obtain ⟨vs, hvs, hplain, hyields⟩ := ih hvaried hothers hvars hfree true
    have hcopy : instantiate (.symbol name) b = .ok (.symbol name) := by
      rw [instantiate, hfree name (.inl hliteral)]
    have hfirst : (Value.symbol name).isEllipsis = false := by
      simpa [Value.isEllipsis_symbol] using hdots
    refine ⟨.symbol name :: vs, ?_, ?_, vs, rfl, hname, hyields⟩
    · rw [instantiateAll_element hfirst, hrest.leadingEllipses_eq_zero, elementCopies, hcopy, hvs]
      rfl
    · rw [List.map_cons, List.map_cons, hplain]
  | @sublist inner _ self head rest _ hrest ihHead ihRest =>
    obtain ⟨forms', self', others, rfl, hhead, hothers⟩ := h
    obtain ⟨us, hus, hplainHead, hyieldsHead⟩ := ihHead hvaried.1 hhead
      (fun n hn => hvars n (List.mem_append_right _ hn)) hfree false
    obtain ⟨vs, hvs, hplainRest, hyieldsRest⟩ := ihRest hvaried.2 hothers
      (fun n hn => hvars n (List.mem_append_left _ hn)) hfree true
    have hcopy : instantiate (.list inner self) b = .ok (.ofList us) := by
      rw [instantiate, hus]
      rfl
    refine ⟨.ofList us :: vs, ?_, ?_, us, none, vs, rfl, hyieldsHead, hyieldsRest⟩
    · rw [instantiateAll_element rfl, hrest.leadingEllipses_eq_zero, elementCopies, hcopy, hvs]
      rfl
    · rw [List.map_cons, List.map_cons, Value.plain_ofList, Value.plain_list, hplainHead,
        hplainRest]
      rfl
  | @repetition element repeated hwritten ih =>
    obtain ⟨assignments, hcolumns, hrows⟩ := h
    have hsymbols : ∀ name, name ∈ symbolsFrom [] element ↔ name ∈ symbolsFromAll [] [element] := by
      intro name
      rw [mem_symbolsFromAll_cons, symbolsFromAll_nil]
      simp
    have hrepeated : ∀ name ∈ symbolsFrom [] element, name ∈ repeated.vars →
        b.get? name = some (.repeated (assignments.map (· name))) := fun name _ hvar => by
      rw [hvars name hvar, hcolumns name hvar]
    -- no other symbol of the element is bound to a sequence, so the variables alone give the rows
    have hunbound : ∀ name ∈ symbolsFrom [] element, name ∉ repeated.vars →
        ∀ trees, b.get? name ≠ some (.repeated trees) := by
      intro name hmem hvar trees htrees
      have hliteral := (hwritten.of_mem_symbols ((hsymbols name).1 hmem)).resolve_left hvar
      rw [hfree name hliteral] at htrees
      cases htrees
    -- the element has a variable, so there is something to repeat
    have hsome : ∃ name ∈ symbolsFrom [] element, name ∈ repeated.vars := by
      obtain ⟨name, hname⟩ := List.exists_mem_of_ne_nil _ hvaried.1
      exact ⟨name, (hsymbols name).2 (hwritten.mem_symbols hname), hname⟩
    obtain ⟨bindings, hbindings, hbound⟩ := repetitions_eq_ok hrepeated hunbound hsome
    have hfirst := hwritten.head_isEllipsis
    -- one copy for each repetition, under the bindings of that repetition
    obtain ⟨vs, hyields, hvs, hplain⟩ := exists_forall₂_of_rows hbound hrows
      fun row r form hr hrow => by
        obtain ⟨copy, hcopy, hplainRow, hyieldsRow⟩ := ih hvaried.2 hrow
          (fun n hn => by
            rw [hr n, if_pos ⟨(hsymbols n).2 (hwritten.mem_symbols hn), hn⟩])
          (fun n hn => by
            have hn' : n ∉ repeated.vars := fun hmem =>
              hn.elim (hwritten.of_mem_vars hmem).1 (hwritten.of_mem_vars hmem).2
            rw [hr n, if_neg fun h => hn' h.2, hfree n hn])
          false
        obtain ⟨v, hv, rfl⟩ := instantiate_of_instantiateAll_singleton hfirst hcopy
        exact ⟨v, hyieldsRow, hv, (List.cons.inj hplainRow).1⟩
    refine ⟨vs, ?_, map_eq_map_of_forall₂ hplain, assignments, hcolumns, hyields⟩
    -- one ellipsis follows, so there is one copy for each row and the ellipsis itself is skipped
    have hcopies : elementCopies element 1 b = .ok vs := by
      rw [elementCopies, copies, hbindings]
      exact mapM_ok_of_forall₂ hvs
    rw [instantiateAll_element hfirst, leadingEllipses_ellipsis, hcopies, instantiateAll_ellipsis]
    exact congrArg Except.ok (List.append_nil vs)

/-- The whole list of a pattern instantiates to a new list, under bindings of its variables and of
nothing else. -/
theorem Yields.instantiate {σ : Assignment} {forms : List Value} {b : Bindings}
    (hw : Written symbols elements p) (hvaried : p.Varied) (h : p.Yields sameBinding σ forms)
    (hb : p.Binds σ ∅ b) (self : Option Identity) :
    ∃ vs, Template.instantiate (.list elements self) b = .ok (.ofList vs)
      ∧ vs.map Value.plain = forms.map Value.plain ∧ p.Yields sameBinding σ vs := by
  -- neither a literal nor the ellipsis is a variable, so the match binds none of them
  have hfree : ∀ name, name ∈ symbols ∨ name = ellipsis → b.get? name = none := by
    intro name hname
    refine hb.outside name fun hvar => ?_
    obtain ⟨hliteral, hdots⟩ := hw.of_mem_vars hvar
    exact hname.elim hliteral hdots
  obtain ⟨vs, hvs, hplain, hyields⟩ := h.instantiateAll hw hvaried hb.inside hfree false
  refine ⟨vs, ?_, hplain, hyields⟩
  rw [Template.instantiate, hvs]
  rfl

end Pattern

end SmallLisp
