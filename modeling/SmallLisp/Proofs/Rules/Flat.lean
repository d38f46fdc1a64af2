import SmallLisp.Proofs.Rules.Shape

/-!
# Matching without structure

Matching nests what a variable matched, and what matched is flattened afterwards. Without the
nesting there is a shorter way (`Pattern.accumulate`): walk along pattern and form together, let
each variable have the sequence of its one form, and where bindings meet put their sequences one
behind the other. An ellipsis then gives each of its variables all the forms of all its repetitions,
one repetition after the other, and the empty sequence if there is none.

Both come to the same (`CompiledPattern.matchFlat?_accumulates`). The walk goes along the list that
the pattern is written as, and knows neither compiled patterns nor trees; the invariant is that the
sequences so far are those of the bindings so far (`Pattern.Flattens`). It is kept where bindings
meet, because no variable is bound twice, so that to overwrite and to append are one
(`Flattens.merge`), and at an ellipsis, because the forms of a tree are those of its repetitions in
order (`Flattens.repetition`).
-/

namespace SmallLisp

/-- The forms of each variable, in order. -/
abbrev Sequences := Table (List Value)

namespace Sequences

/-- The forms of a variable, of which there are none if it is not bound. -/
def sequence (s : Sequences) (name : String) : List Value :=
  (s.get? name).getD []

/-- Puts each sequence of the second bindings behind that of the first. -/
def merge (s t : Sequences) : Sequences :=
  s.setAll (t.names.map fun name => (name, s.sequence name ++ t.sequence name))

/-- Binds each of the names to no form. -/
def unmatched (names : List String) : Sequences :=
  Table.ofPairs (names.map fun name => (name, []))

end Sequences

namespace Pattern

mutual

/-- Matches an element of a pattern with a form: a variable with any form, a literal with the symbol
of its name, a list with a list. -/
def accumulate (literals : List String) (sameBinding : String → Bool) (element form : Value) :
    Option Sequences :=
  match element with
  | .symbol name =>
    if literals.contains name then
      if form.isSymbolNamed name && sameBinding name then some ∅ else none
    else some (Table.ofPairs [(name, [form])])
  | .list elements _ =>
    match form with
    | .list forms _ => accumulateAll literals sameBinding elements forms ∅
    | _ => none
  | _ => none

/-- Matches the elements of a list with forms and adds to the sequences so far. An element before an
ellipsis is matched with each form that is left. -/
def accumulateAll (literals : List String) (sameBinding : String → Bool)
    (elements forms : List Value)
    (found : Sequences) : Option Sequences :=
  match elements with
  | [] => if forms.isEmpty then some found else none
  | element :: rest =>
    if rest.head?.any Value.isEllipsis then
      -- every form that is left is matched by itself, and what they give is joined in order
      (forms.mapM (accumulate literals sameBinding element)).map fun repetitions =>
        repetitions.foldl Sequences.merge
          (found.merge (.unmatched ((occurrences literals 0 element).map Prod.fst)))
    else
      match forms with
      | [] => none
      | form :: others =>
        (accumulate literals sameBinding element form).bind fun here =>
          accumulateAll literals sameBinding rest others (found.merge here)

end

end Pattern

/-! ### Sequences that meet -/

namespace Sequences

variable {s t : Sequences} {name : String}

theorem sequence_of_get? {forms : List Value} (h : s.get? name = some forms) :
    s.sequence name = forms := by
  rw [sequence, h]
  rfl

theorem sequence_of_get?_eq_none (h : s.get? name = none) : s.sequence name = [] := by
  rw [sequence, h]
  rfl

theorem get?_of_mem (h : name ∈ s.names) : s.get? name = some (s.sequence name) := by
  obtain ⟨forms, hforms⟩ := (s.mem_names_iff name).1 h
  rw [sequence_of_get? hforms, hforms]

/-- What the second bindings bind comes behind what the first ones do. -/
theorem get?_merge_of_mem (s : Sequences) (h : name ∈ t.names) :
    (s.merge t).get? name = some (s.sequence name ++ t.sequence name) :=
  (s.get?_setAll_map _ t.names name).trans (if_pos h)

theorem get?_merge_of_notMem (s : Sequences) (h : name ∉ t.names) :
    (s.merge t).get? name = s.get? name :=
  (s.get?_setAll_map _ t.names name).trans (if_neg h)

theorem mem_names_merge (h : name ∈ s.names) (t : Sequences) : name ∈ (s.merge t).names := by
  rw [Table.mem_names_iff]
  by_cases hname : name ∈ t.names
  · exact ⟨_, get?_merge_of_mem s hname⟩
  · exact ⟨_, (get?_merge_of_notMem s hname).trans (get?_of_mem h)⟩

theorem sequence_merge (s t : Sequences) (name : String) :
    (s.merge t).sequence name = s.sequence name ++ t.sequence name := by
  by_cases hname : name ∈ t.names
  · exact sequence_of_get? (get?_merge_of_mem s hname)
  · rw [sequence_of_get?_eq_none ((t.get?_eq_none_iff name).2 hname), List.append_nil, sequence,
      get?_merge_of_notMem s hname]
    rfl

theorem get?_empty_merge (t : Sequences) (name : String) : (merge ∅ t).get? name = t.get? name := by
  by_cases hname : name ∈ t.names
  · rw [get?_merge_of_mem ∅ hname, get?_of_mem hname]
    rfl
  · rw [get?_merge_of_notMem ∅ hname, (t.get?_eq_none_iff name).2 hname]
    rfl

/-- **Of several bindings that meet** a variable has all sequences, one behind the other. -/
theorem get?_foldl_merge (h : name ∈ s.names) (ts : List Sequences) :
    (ts.foldl merge s).get? name = some (s.sequence name ++ ts.flatMap (·.sequence name)) := by
  induction ts generalizing s with
  | nil => rw [List.foldl_nil, List.flatMap_nil, List.append_nil, get?_of_mem h]
  | cons t ts ih =>
    rw [List.foldl_cons, ih (mem_names_merge h t), sequence_merge, List.append_assoc]
    rfl

/-- A variable that none of the others binds stays as it is. -/
theorem get?_foldl_merge_of_notMem {ts : List Sequences} (h : ∀ t ∈ ts, name ∉ t.names)
    (s : Sequences) : (ts.foldl merge s).get? name = s.get? name := by
  induction ts generalizing s with
  | nil => rfl
  | cons t ts ih =>
    obtain ⟨ht, hts⟩ := List.forall_mem_cons.1 h
    rw [List.foldl_cons, ih hts, get?_merge_of_notMem s ht]

theorem get?_unmatched (names : List String) (name : String) :
    (unmatched names).get? name = if name ∈ names then some [] else none :=
  Table.get?_ofPairs_map (fun _ => []) names name

theorem mem_names_unmatched {names : List String} :
    name ∈ (unmatched names).names ↔ name ∈ names := by
  rw [Table.mem_names_iff, get?_unmatched]
  split
  · next hname => exact ⟨fun _ => hname, fun _ => ⟨[], rfl⟩⟩
  · next hname => exact ⟨nofun, fun hmem => absurd hmem hname⟩

theorem sequence_unmatched (names : List String) (name : String) :
    (unmatched names).sequence name = [] := by
  rw [sequence, get?_unmatched]
  split <;> rfl

end Sequences

namespace Pattern

variable {literals : List String} {sameBinding : String → Bool} {elements : List Value}
  {element : Value} {p : Pattern} {name : String}

/-! ### Sequences of bindings -/

/-- The sequences are those of the trees. -/
def Flattens (b : Bindings) (s : Sequences) : Prop :=
  ∀ name, s.get? name = (b.get? name).map Tree.forms

namespace Flattens

variable {b inner : Bindings} {s t : Sequences}

theorem empty : Flattens ∅ ∅ := fun _ => rfl

theorem mem_names (h : Flattens b s) : name ∈ s.names ↔ name ∈ b.names := by
  rw [Table.mem_names_iff, Table.mem_names_iff, h name]
  cases b.get? name <;> simp

theorem sequence_eq_nil (h : Flattens b s) (hname : b.get? name = none) : s.sequence name = [] := by
  refine Sequences.sequence_of_get?_eq_none ?_
  rw [h name, hname]
  rfl

/-- A variable that is new has the sequence of its one form. -/
theorem set (h : Flattens b s) (hnew : b.get? name = none) (form : Value) :
    Flattens (b.set name (.form form)) (s.merge (Table.ofPairs [(name, [form])])) := by
  intro other
  have hnames : (Table.ofPairs [(name, [form])]).names = [name] := rfl
  rw [Table.get?_set]
  by_cases hother : other = name
  · have hsequence : (Table.ofPairs [(name, [form])]).get? name = some [form] :=
      (Table.get?_ofPairs_map (fun _ => [form]) [name] name).trans
        (if_pos (List.mem_singleton_self name))
    rw [hother, if_pos rfl, Sequences.get?_merge_of_mem s (hnames ▸ List.mem_singleton_self name),
      h.sequence_eq_nil hnew, Sequences.sequence_of_get? hsequence]
    rfl
  · -- every other name keeps its sequence
    rw [if_neg hother, Sequences.get?_merge_of_notMem s (hnames ▸ mt List.mem_singleton.1 hother),
      h other]

/-- **Bindings without a name in common** are appended and not overwritten. -/
theorem merge (h : Flattens b s) (hinner : Flattens inner t) (hnd : inner.names.Nodup)
    (hnew : ∀ name ∈ inner.names, b.get? name = none) :
    Flattens (b.setAll inner.entries) (s.merge t) := by
  intro name
  rw [Table.get?_setAll_entries b hnd]
  -- a name of the inner bindings has no sequence yet, so that nothing comes before its forms
  by_cases hname : name ∈ inner.names
  · obtain ⟨tree, htree⟩ := (inner.mem_names_iff name).1 hname
    have hsequence : t.get? name = some tree.forms := by
      rw [hinner name, htree]
      rfl
    rw [Sequences.get?_merge_of_mem s (hinner.mem_names.2 hname),
      h.sequence_eq_nil (hnew name hname),
      Sequences.sequence_of_get? hsequence, htree]
    rfl
  · rw [Sequences.get?_merge_of_notMem s (mt hinner.mem_names.1 hname),
      (inner.get?_eq_none_iff name).2 hname, Option.none_or, h name]

/-- **The forms of a gathered tree** are those of the repetitions, in order. -/
theorem repetition (h : Flattens b s) {names others : List String} (hperm : names.Perm others)
    (hnew : ∀ name ∈ names, b.get? name = none)
    {repetitions : List Bindings} {rows : List Sequences}
    (hrows : List.Forall₂ Flattens repetitions rows)
    (hbound : ∀ r ∈ repetitions, ∀ name ∈ r.names, name ∈ names) :
    Flattens (b.setAll (Bindings.gather names repetitions).entries)
      (rows.foldl Sequences.merge (s.merge (.unmatched others))) := by
  intro name
  have hmem : name ∈ (Sequences.unmatched others).names ↔ name ∈ names :=
    Sequences.mem_names_unmatched.trans hperm.mem_iff.symm
  have hentries : (Bindings.gather names repetitions).names.Nodup := Table.nodup_names_ofPairs _
  have hgather : (Bindings.gather names repetitions).get? name
      = if name ∈ names then
          some (.repeated (repetitions.map fun r => (r.get? name).getD (.repeated [])))
        else none := Table.get?_ofPairs_map _ names name
  rw [Table.get?_setAll_entries b hentries, hgather]
  by_cases hname : name ∈ names
  · -- a variable of the repetition begins without forms, and each row adds its own
    have hbase := Sequences.get?_merge_of_mem s (hmem.2 hname)
    -- a row has the forms of its repetition
    have hforms : rows.flatMap (·.sequence name)
        = Tree.allForms (repetitions.map fun r => (r.get? name).getD (.repeated [])) := by
      rw [Tree.allForms_eq_flatMap, List.flatMap_map, List.flatMap_def, List.flatMap_def]
      refine congrArg List.flatten (map_eq_map_of_forall₂ (hrows.imp fun r row hrow => ?_))
      rw [Sequences.sequence, hrow name]
      cases r.get? name <;> rfl
    rw [if_pos hname, Sequences.get?_foldl_merge ((Table.mem_names_iff _ name).2 ⟨_, hbase⟩),
      Sequences.sequence_merge, Sequences.sequence_unmatched,
      h.sequence_eq_nil (hnew name hname), hforms]
    rfl
  · -- a name that is not one of them is in no row
    have habsent : ∀ row ∈ rows, name ∉ row.names := by
      refine forall_mem_of_forall₂ hrows hbound fun r row hr hrow hmem => ?_
      exact hname (hr name (hrow.mem_names.1 hmem))
    rw [if_neg hname, Option.none_or, Sequences.get?_foldl_merge_of_notMem habsent,
      Sequences.get?_merge_of_notMem s (mt hmem.1 hname), h name]

end Flattens

/-! ### The two ways come to the same -/

/-- A list is matched on its own, and then the rest with what it has bound. -/
theorem matchForms_sublist_cons (head rest : Pattern) (elements : List Value)
    (self : Option Identity)
    (others : List Value) (bound : Bindings) :
    (sublist head rest).matchForms sameBinding (.list elements self :: others) bound
      = (head.matchForms sameBinding elements ∅).bind fun inner =>
          rest.matchForms sameBinding others (bound.setAll inner.entries) := by
  rw [matchForms]
  cases head.matchForms sameBinding elements ∅ <;> rfl

/-- Every form that is left is matched on its own. -/
theorem matchForms_repetition_eq (repeated : Pattern) (names : List String) (forms : List Value)
    (bound : Bindings) :
    (repetition repeated names).matchForms sameBinding forms bound
      = (forms.mapM fun form => repeated.matchForms sameBinding [form] ∅).map fun repetitions =>
          bound.setAll (Bindings.gather names repetitions).entries := by
  rw [matchForms]
  cases forms.mapM fun form => repeated.matchForms sameBinding [form] ∅ <;> rfl

/-- What is bound by matching some forms is bound before, or a variable of the pattern. -/
theorem mem_vars_of_matchForms (hw : Written literals elements p) (hnd : p.vars.Nodup)
    {forms : List Value} {b : Bindings} (h : p.matchForms sameBinding forms ∅ = some b)
    (hname : name ∈ b.names) : name ∈ p.vars := by
  obtain ⟨σ, -, hbinds⟩ := exists_yields_of_matchForms hw hnd h
  exact hbinds.mem_names_iff.1 hname

/-- An element that no ellipsis follows is matched with the first form. -/
theorem accumulateAll_cons {rest : List Value} (hrest : Written literals rest p)
    (element form : Value)
    (others : List Value) (found : Sequences) :
    accumulateAll literals sameBinding (element :: rest) (form :: others) found
      = (accumulate literals sameBinding element form).bind fun here =>
          accumulateAll literals sameBinding rest others (found.merge here) := by
  rw [accumulateAll.eq_def]
  dsimp only
  rw [hrest.head?_isEllipsis, if_neg Bool.false_ne_true]

/-- Where no form is left there is none for it. -/
theorem accumulateAll_cons_nil {rest : List Value} (hrest : Written literals rest p)
    (element : Value)
    (found : Sequences) : accumulateAll literals sameBinding (element :: rest) [] found = none := by
  rw [accumulateAll.eq_def]
  dsimp only
  rw [hrest.head?_isEllipsis, if_neg Bool.false_ne_true]

/-- An element by itself is matched with one form. -/
theorem accumulateAll_singleton (element form : Value) (found : Sequences) :
    accumulateAll literals sameBinding [element] [form] found
      = (accumulate literals sameBinding element form).map found.merge := by
  rw [accumulateAll_cons .empty]
  cases accumulate literals sameBinding element form with
  | none => rfl
  | some here =>
    rw [Option.bind_some, accumulateAll]
    rfl

/-- An element before an ellipsis is matched with every form that is left. -/
theorem accumulateAll_repetition (element : Value) (forms : List Value) (found : Sequences) :
    accumulateAll literals sameBinding [element, .symbol ellipsis] forms found
      = (forms.mapM (accumulate literals sameBinding element)).map fun repetitions =>
          repetitions.foldl Sequences.merge
            (found.merge (.unmatched ((occurrences literals 0 element).map Prod.fst))) := by
  have hdots : ([Value.symbol ellipsis].head?.any Value.isEllipsis) = true := by
    simp [Value.isEllipsis_symbol]
  rw [accumulateAll.eq_def]
  dsimp only
  rw [hdots, if_pos rfl]

/-- **The walk finds what matching finds.** -/
theorem rel_accumulateAll (hw : Written literals elements p) (hnd : p.vars.Nodup)
    {bound : Bindings} {found : Sequences} (hfound : Flattens bound found)
    (hnew : ∀ name ∈ p.vars, bound.get? name = none) (forms : List Value) :
    Option.Rel Flattens (p.matchForms sameBinding forms bound)
      (accumulateAll literals sameBinding elements forms found) := by
  -- both walks go along the pattern; what was bound and what was found so far correspond
  induction hw generalizing forms bound found with
  | empty =>
    rw [accumulateAll]
    cases forms with
    | nil => exact .some hfound
    | cons form others => exact .none
  | @«variable» name _ rest hfree _ hrest ih =>
    rw [vars, List.nodup_append] at hnd
    cases forms with
    | nil =>
      rw [accumulateAll_cons_nil hrest]
      exact .none
    | cons form others =>
      have hname : bound.get? name = none :=
        hnew name (List.mem_append_right _ (List.mem_singleton_self name))
      rw [matchForms, accumulateAll_cons hrest, accumulate, if_neg (by simpa using hfree)]
      -- the name occurs once, so the rest does not bind it again
      refine ih hnd.1 (hfound.set hname form) (fun n hn => ?_) others
      rw [Table.get?_set, if_neg (hnd.2.2 n hn name (List.mem_singleton_self name)),
        hnew n (List.mem_append_left _ hn)]
  | @literal name _ rest hliteral _ hrest ih =>
    cases forms with
    | nil =>
      rw [accumulateAll_cons_nil hrest]
      exact .none
    | cons form others =>
      have hcontains : literals.contains name = true := by simpa using hliteral
      rw [matchForms, accumulateAll_cons hrest, accumulate, if_pos hcontains]
      by_cases hmatch : (form.isSymbolNamed name && sameBinding name) = true
      · rw [if_pos hmatch, if_pos hmatch]
        exact ih hnd hfound hnew others
      · rw [if_neg hmatch, if_neg hmatch]
        exact .none
  | @sublist inner _ _ head rest hhead hrest ihHead ihRest =>
    rw [vars, List.nodup_append] at hnd
    cases forms with
    | nil =>
      rw [accumulateAll_cons_nil hrest]
      exact .none
    | cons form others =>
      rw [accumulateAll_cons hrest]
      cases form with
      | list elements self =>
        rw [matchForms_sublist_cons, accumulate]
        refine optionRel_bind (ihHead hnd.2.1 .empty (fun _ _ => rfl) elements) ?_
        intro b here hmatch hhere
        -- the sublist binds its own variables, which are bound nowhere else
        have hvars : ∀ n ∈ b.names, n ∈ head.vars :=
          fun n hn => mem_vars_of_matchForms hhead hnd.2.1 hmatch hn
        have hnames := nodup_names_of_matchForms hmatch
        refine ihRest hnd.1 (hfound.merge hhere hnames fun n hn =>
          hnew n (List.mem_append_right _ (hvars n hn))) (fun n hn => ?_) others
        have hb : b.get? n = none := (b.get?_eq_none_iff n).2 fun hmem =>
          hnd.2.2 n hn n (hvars n hmem) rfl
        rw [Table.get?_setAll_entries bound hnames, hb, Option.none_or,
          hnew n (List.mem_append_left _ hn)]
      | _ => exact .none
  | @repetition element repeated hwritten ih =>
    have hone : ∀ form, Option.Rel Flattens (repeated.matchForms sameBinding [form] ∅)
        (accumulate literals sameBinding element form) := by
      intro form
      have hrel := ih hnd .empty (fun _ _ => rfl) [form]
      rw [accumulateAll_singleton] at hrel
      exact optionRel_of_map_right hrel fun _ here hflat name =>
        (Sequences.get?_empty_merge here name).symm.trans (hflat name)
    have hvars : repeated.vars.Perm ((occurrences literals 0 element).map Prod.fst) := by
      rw [← occurrencesIn_singleton]
      exact hwritten.vars_perm 0
    -- both gather what each form by itself has matched
    rw [matchForms_repetition_eq, accumulateAll_repetition]
    refine optionRel_map (optionRel_mapM hone forms) fun repetitions rows hmatches hrows => ?_
    refine hfound.repetition hvars hnew hrows ?_
    exact forall_mem_of_forall₂ (forall₂_of_mapM_some hmatches) (fun _ _ => trivial)
      fun form r _ hmatch n hn => mem_vars_of_matchForms hwritten hnd hmatch hn

end Pattern

namespace CompiledPattern

open Pattern

variable {pattern : Value} {literals : List String} {c : CompiledPattern}

/-- **Flat matching is accumulation.** A pattern that compiles matches a form, without the
repetitions, just where the walk along both goes through, and every variable has the sequence that
the walk has found for it. A variable under no ellipsis has exactly one form. -/
theorem matchFlat?_accumulates (hc : compile pattern literals = .ok c) (store : Store)
    (definition use : Env) (form : Value) :
    ∃ found, Pattern.matchFlat? pattern literals (store.agree definition use) form = .ok found
      ∧ Option.Rel (fun flat direct => ∀ name, flat.get? name = direct.get? name) found
          (accumulate literals (store.agree definition use) pattern form)
      ∧ ∀ flat, found = some flat → ∀ name, c.depths.get? name = some 0 →
          ∃ v, flat.get? name = some [v] := by
  refine ⟨c.matchFlat? (store.agree definition use) form, ?_, ?_, ?_⟩
  · rw [Pattern.matchFlat?, hc]
    rfl
  · obtain ⟨elements, self, rfl, hw, -, hnd⟩ := compile_spec hc
    cases form with
    | list forms self' =>
      have hrel : Option.Rel Flattens (c.root.matchForms (store.agree definition use) forms ∅)
          (accumulateAll literals (store.agree definition use) elements forms ∅) :=
        rel_accumulateAll hw hnd .empty (fun _ _ => rfl) forms
      rw [accumulate]
      refine optionRel_map_left hrel fun b direct hmatch hdirect name => ?_
      rw [Bindings.get?_flatten (nodup_names_of_matchForms hmatch), hdirect name]
    | _ => exact .none
  · intro flat hflat name hdepth
    obtain ⟨b, hb, rfl⟩ := Option.map_eq_some_iff.1 hflat
    obtain ⟨tree, htree, hlevels⟩ := exists_tree_of_depth hc hb hdepth
    -- a variable at no level has exactly one form
    obtain ⟨v, rfl⟩ := Tree.exists_form_of_hasDepth hlevels
    refine ⟨v, ?_⟩
    rw [Bindings.get?_flatten (nodup_names_of_matchForm? hb), htree]
    rfl

/-- In `(f ((a => "1" "2") (b =>)))` the walk along `arrows` finds the two strings for `v`. -/
theorem matchFlat?_accumulates_arrows :
    ∃ direct, accumulate ["=>"] (Store.empty.agree [] []) (.ofList arrows) (.ofList arrowOperands)
        = some direct
      ∧ arrowTrees.flatten.get? "v" = direct.get? "v"
      ∧ ∃ v, arrowTrees.flatten.get? "op" = some [v] := by
  have hc : compile (.ofList arrows) ["=>"] = .ok compiledArrows := rfl
  obtain ⟨found, hfound, hrel, hsingle⟩ :=
    matchFlat?_accumulates hc .empty [] [] (.ofList arrowOperands)
  -- two ragged groups: what they match is joined in order
  have hflat : found = some arrowTrees.flatten := (Except.ok.inj hfound).symm
  rw [hflat] at hrel hsingle
  obtain ⟨direct, hdirect⟩ : ∃ direct, accumulate ["=>"] (Store.empty.agree [] []) (.ofList arrows)
      (.ofList arrowOperands) = some direct := ⟨_, rfl⟩
  rw [hdirect] at hrel
  cases hrel with
  | some hsame => exact ⟨direct, hdirect, hsame "v", hsingle _ rfl "op" rfl⟩

end CompiledPattern

end SmallLisp
