import SmallLisp.Derived
import SmallLisp.Proofs.Discipline.Basic
import SmallLisp.Proofs.Rules.Copy

/-!
# Rewriting keeps to every discipline

Derived forms and transformers turn code into code before any of it is evaluated:

* `code_desugar` — a derived form stands for an expression that is put together from parts of it
  and from keywords;
* `code_expand` — the instance of a template is put together from the template and from what its
  variables matched, which are parts of the form;
* `data_make` — the clauses of a new transformer are parts of the form that describes it, and the
  pattern of each was compiled.
-/

namespace SmallLisp.Discipline

variable {D : Discipline}

/-! ### Derived forms -/

theorem code_symbol_keyword {name : String} (h : name ∈ ["ok", "if", "begin", "lambda"]) :
    D.Code (.symbol name) :=
  .symbol (D.keyword name h)

theorem code_sequence {es : List Value} (h : ∀ e ∈ es, D.Code e) :
    D.Code (Derived.sequence es) := by
  match es with
  | [] => exact .ofList h
  | [e] => exact h e (List.mem_singleton_self e)
  | e :: e' :: es =>
    refine .ofList fun v hv => ?_
    rcases List.mem_cons.1 hv with rfl | hmem
    · exact code_symbol_keyword (by simp)
    · exact h v hmem

theorem code_nestClauses {clauses : List Value} (h : ∀ c ∈ clauses, D.Code c) {v : Value}
    (hv : Derived.nestClauses clauses = .ok v) : D.Code v := by
  induction clauses generalizing v with
  | nil =>
    cases hv
    exact .boolean
  | cons clause rest ih =>
    have hclause := h clause List.mem_cons_self
    unfold Derived.nestClauses at hv
    split at hv
    · next heq => cases heq
    · next test actions self _ heq =>
      cases heq
      -- the clause is a list, so its test and its actions are code
      have hparts := hclause.of_list
      have hactions := code_sequence fun e he => hparts e (List.mem_cons_of_mem test he)
      split at hv
      · split at hv
        · cases hv
          exact hactions
        · cases hv
      · -- the clauses behind this one are nested in its last operand
        obtain ⟨otherwise, hotherwise, rfl⟩ := map_eq_ok_iff.1 hv
        have hrest := ih (fun c hc => h c (List.mem_cons_of_mem _ hc)) hotherwise
        refine .ofList fun w hw => ?_
        simp only [List.mem_cons, List.not_mem_nil, or_false] at hw
        rcases hw with rfl | rfl | rfl | rfl
        · exact code_symbol_keyword (by simp)
        · exact hparts _ List.mem_cons_self
        · exact hactions
        · exact hrest
    · cases hv

theorem code_splitBindings {bindings : List Value} (h : ∀ b ∈ bindings, D.Code b)
    {names values : List Value} (hs : Derived.splitBindings bindings = .ok (names, values)) :
    (∀ n ∈ names, D.Code n) ∧ ∀ v ∈ values, D.Code v := by
  induction bindings generalizing names values with
  | nil =>
    cases hs
    exact ⟨fun _ hmem => absurd hmem List.not_mem_nil, fun _ hmem => absurd hmem List.not_mem_nil⟩
  | cons binding rest ih =>
    have hbinding := h binding List.mem_cons_self
    unfold Derived.splitBindings at hs
    split at hs
    · next heq => cases heq
    · next name value self _ heq =>
      cases heq
      obtain ⟨⟨names', values'⟩, hrest, heq⟩ := map_eq_ok_iff.1 hs
      cases heq
      obtain ⟨hnames, hvalues⟩ := ih (fun b hb => h b (List.mem_cons_of_mem _ hb)) hrest
      -- name and value are elements of the binding, and so code as it is
      have hparts := hbinding.of_list
      exact ⟨List.forall_mem_cons.2 ⟨hparts _ (by simp), hnames⟩,
        List.forall_mem_cons.2 ⟨hparts _ (by simp), hvalues⟩⟩
    · cases hs

/-- **A derived form stands for code.** -/
theorem code_desugar {d : Derived} {form : List Value} (h : ∀ e ∈ form, D.Code e) {v : Value}
    (hv : d.desugar form = .ok v) : D.Code v := by
  cases d with
  | conditional => exact code_nestClauses (fun c hc => h c (List.mem_of_mem_tail hc)) hv
  | binding =>
    rw [Derived.desugar] at hv
    unfold Derived.combination at hv
    split at hv
    · next tag bindings self body =>
      split at hv
      · cases hv
      · obtain ⟨⟨names, values⟩, hsplit, rfl⟩ := map_eq_ok_iff.1 hv
        have hbindings : D.Code (.list bindings self) := h _ (by simp)
        obtain ⟨hnames, hvalues⟩ := code_splitBindings hbindings.of_list hsplit
        -- the application of a `lambda`, which is a list itself, to the values
        refine .ofList (List.forall_mem_cons.2 ⟨.ofList ?_, hvalues⟩)
        refine List.forall_mem_cons.2 ⟨code_symbol_keyword (by simp), ?_⟩
        exact List.forall_mem_cons.2 ⟨.ofList hnames, fun e he => h e (by simp [he])⟩
    · cases hv

/-! ### Matching -/

/-- The trees whose forms are code. -/
inductive CodeTree (D : Discipline) : Tree → Prop where
  | form {v : Value} : D.Code v → CodeTree D (.form v)
  | repeated {trees : List Tree} : (∀ tree ∈ trees, CodeTree D tree) → CodeTree D (.repeated trees)

/-- The bindings of code. -/
def CodeBindings (D : Discipline) (b : Bindings) : Prop :=
  ∀ name tree, b.get? name = some tree → D.CodeTree tree

theorem codeBindings_empty : D.CodeBindings ∅ := nofun

theorem CodeBindings.set {b : Bindings} (h : D.CodeBindings b) (name : String) {tree : Tree}
    (htree : D.CodeTree tree) : D.CodeBindings (b.set name tree) := by
  intro other t ht
  rw [Table.get?_set] at ht
  split at ht
  · cases ht
    exact htree
  · exact h other t ht

theorem CodeBindings.setAll {b : Bindings} (h : D.CodeBindings b) {pairs : List (String × Tree)}
    (hpairs : ∀ p ∈ pairs, D.CodeTree p.2) : D.CodeBindings (b.setAll pairs) := by
  intro name tree htree
  rcases Table.of_get?_setAll htree with hmem | hold
  · exact hpairs _ hmem
  · exact h name tree hold

/-- Where no name is repeated, every entry is one that can be looked up. -/
theorem CodeBindings.entries {b : Bindings} (h : D.CodeBindings b) (hnd : b.names.Nodup) :
    ∀ p ∈ b.entries, D.CodeTree p.2 :=
  fun p hp => h p.1 p.2 (Table.get?_of_mem_entries hnd hp)

theorem codeBindings_gather {repetitions : List Bindings} (h : ∀ r ∈ repetitions, D.CodeBindings r)
    (names : List String) : D.CodeBindings (Bindings.gather names repetitions) := by
  intro name tree htree
  rcases Table.of_get?_setAll htree with hmem | hempty
  · obtain ⟨n, -, heq⟩ := List.mem_map.1 hmem
    cases heq
    refine .repeated fun t ht => ?_
    -- an empty sequence stands in for what a repetition does not bind
    obtain ⟨r, hr, rfl⟩ := List.mem_map.1 ht
    cases hfound : r.get? name with
    | none => exact .repeated nofun
    | some found => exact h r hr name found hfound
  · cases hempty

/-- **A match binds parts of the forms.** -/
theorem CodeBindings.matchForms {sameBinding : String → Bool} {p : Pattern} {forms : List Value}
    {bound b : Bindings} (hbound : D.CodeBindings bound) (hforms : ∀ form ∈ forms, D.Code form)
    (h : p.matchForms sameBinding forms bound = some b) : D.CodeBindings b := by
  induction p generalizing forms bound b with
  | empty =>
    obtain ⟨-, rfl⟩ := Pattern.matchForms_empty.1 h
    exact hbound
  | «variable» name rest ih =>
    obtain ⟨form, others, rfl, hrest⟩ := Pattern.matchForms_variable.1 h
    obtain ⟨hform, hothers⟩ := List.forall_mem_cons.1 hforms
    exact ih (hbound.set name (.form hform)) hothers hrest
  | literal name rest ih =>
    obtain ⟨others, rfl, -, hrest⟩ := Pattern.matchForms_literal.1 h
    exact ih hbound (List.forall_mem_cons.1 hforms).2 hrest
  | sublist head rest ihHead ihRest =>
    obtain ⟨elements, self, others, inner, rfl, hhead, hrest⟩ := Pattern.matchForms_sublist.1 h
    obtain ⟨hlist, hothers⟩ := List.forall_mem_cons.1 hforms
    -- the head is matched on its own, and what it binds is added to the rest
    have hinner := ihHead codeBindings_empty hlist.of_list hhead
    have hentries := hinner.entries (Pattern.nodup_names_of_matchForms hhead)
    exact ihRest (hbound.setAll hentries) hothers hrest
  | repetition repeated names ih =>
    obtain ⟨repetitions, hmatches, rfl⟩ := Pattern.matchForms_repetition.1 h
    -- each form of the repetition is matched alone
    have hrepetitions : ∀ r ∈ repetitions, D.CodeBindings r :=
      forall_mem_of_forall₂ hmatches hforms fun form r hform hr =>
        ih codeBindings_empty (fun v hv => List.mem_singleton.1 hv ▸ hform) hr
    exact hbound.setAll
      ((codeBindings_gather hrepetitions names).entries (Table.nodup_names_ofPairs _))

theorem CodeBindings.of_matchForm? {sameBinding : String → Bool} {c : CompiledPattern}
    {form : Value} (hform : D.Code form) {b : Bindings}
    (h : c.matchForm? sameBinding form = some b) : D.CodeBindings b := by
  cases form with
  | list elements self => exact codeBindings_empty.matchForms hform.of_list h
  | _ => cases h

/-! ### Templates -/

theorem codeBindings_rows {sequences : List (String × List Tree)}
    (h : ∀ p ∈ sequences, ∀ tree ∈ p.2, D.CodeTree tree) {b : Bindings} (hb : D.CodeBindings b)
    (count : Nat) : ∀ r ∈ Template.rows sequences count b, D.CodeBindings r := by
  induction sequences with
  | nil =>
    intro r hr
    rw [Template.rows, List.foldr_nil] at hr
    rwa [List.eq_of_mem_replicate hr]
  | cons p others ih =>
    obtain ⟨hp, hothers⟩ := List.forall_mem_cons.1 h
    have hinner := ih hothers
    rw [Template.rows] at hinner ⊢
    rw [List.foldr_cons]
    generalize List.foldr _ _ others = inner at hinner
    intro r hr
    -- a row is one of the inner rows with a tree of the sequence added
    obtain ⟨place, hplace⟩ := List.mem_iff_getElem?.1 hr
    obtain ⟨tree, row, htree, hrow, rfl⟩ := List.getElem?_zipWith_eq_some.1 hplace
    exact (hinner row (List.mem_of_getElem? hrow)).set p.1 (hp tree (List.mem_of_getElem? htree))

theorem codeBindings_repetitions {names : List String} {b : Bindings} (hb : D.CodeBindings b)
    {bindings : List Bindings} (h : Template.repetitions names b = .ok bindings) :
    ∀ r ∈ bindings, D.CodeBindings r := by
  -- what is repeated is taken from the bindings, so its trees hold code
  have hsequences : ∀ p ∈ Template.repeatedAmong names b, ∀ tree ∈ p.2, D.CodeTree tree := by
    intro p hp
    obtain ⟨name, -, hname⟩ := List.mem_filterMap.1 hp
    split at hname
    · next trees htrees =>
      cases hname
      cases hb name _ htrees with
      | repeated hall => exact hall
    · cases hname
  rw [Template.repetitions] at h
  split at h
  · cases h
  · next first others heq =>
    dsimp only at h
    split at h
    · cases h
      exact codeBindings_rows (heq ▸ hsequences) hb _
    · cases h

/-- What is copied under ellipses is code if each single copy is. -/
theorem code_copies {build : Bindings → Except SyntaxFault Value}
    (hbuild : ∀ r v, D.CodeBindings r → build r = .ok v → D.Code v) {names : List String}
    {more : Nat} {b : Bindings} (hb : D.CodeBindings b) {vs : List Value}
    (h : Template.copies build names more b = .ok vs) : ∀ v ∈ vs, D.Code v := by
  induction more generalizing b vs with
  -- with one ellipsis the template is built once for each row
  | zero =>
    rw [Template.copies] at h
    obtain ⟨bindings, hbindings, hvs⟩ := bind_eq_ok_iff.1 h
    exact forall_mem_of_forall₂ (forall₂_of_mapM_ok hvs) (codeBindings_repetitions hb hbindings)
      fun r v => hbuild r v
  | succ more ih =>
    rw [Template.copies] at h
    obtain ⟨lists, hcopies, rfl⟩ := map_eq_ok_iff.1 h
    obtain ⟨bindings, hbindings, hlists⟩ := bind_eq_ok_iff.1 hcopies
    -- with more of them a row gives a list of copies, and the lists are joined
    have hall : ∀ list ∈ lists, ∀ v ∈ list, D.Code v :=
      forall_mem_of_forall₂ (forall₂_of_mapM_ok hlists) (codeBindings_repetitions hb hbindings)
        fun r list hr hlist => ih hr hlist
    intro v hv
    obtain ⟨list, hlist, hmem⟩ := List.mem_flatten.1 hv
    exact hall list hlist v hmem

mutual

/-- **The instance of a template is code**, if the template and what is bound in it are. -/
theorem code_instantiate {template : Value} (h : D.Code template) {b : Bindings}
    (hb : D.CodeBindings b) {v : Value} (hv : Template.instantiate template b = .ok v) :
    D.Code v := by
  match template with
  -- a variable is replaced by the form it is bound to; any other symbol stays
  | .symbol name =>
    rw [Template.instantiate] at hv
    split at hv
    · cases hv
      exact h
    · next form hform =>
      cases hv
      cases hb name _ hform with
      | form hcode => exact hcode
    · cases hv
  | .list elements self =>
    rw [Template.instantiate] at hv
    obtain ⟨vs, hvs, rfl⟩ := map_eq_ok_iff.1 hv
    exact .ofList (code_instantiateAll h.of_list hb hvs)
  | .number _ _ | .string _ | .boolean _ | .primitive _ _ | .compound _ _ _ _ _
  | .transformer _ _ _ _ _ =>
    rw [Template.instantiate] at hv
    · cases hv
      exact h
    all_goals nofun

theorem code_instantiateAll {elements : List Value} (h : ∀ e ∈ elements, D.Code e) {b : Bindings}
    (hb : D.CodeBindings b) {after : Bool} {vs : List Value}
    (hvs : Template.instantiateAll after elements b = .ok vs) : ∀ v ∈ vs, D.Code v := by
  match elements with
  | [] =>
    rw [Template.instantiateAll] at hvs
    cases hvs
    nofun
  | element :: rest =>
    obtain ⟨helement, hrest⟩ := List.forall_mem_cons.1 h
    rw [Template.instantiateAll_cons] at hvs
    split at hvs
    · exact code_instantiateAll hrest hb hvs
    · obtain ⟨here, hhere, hvs⟩ := bind_eq_ok_iff.1 hvs
      obtain ⟨others, hothers, rfl⟩ := map_eq_ok_iff.1 hvs
      -- each copy of the element is an instance of it, under whatever bindings it is made
      refine List.forall_mem_append.2 ⟨?_, code_instantiateAll hrest hb hothers⟩
      cases hcount : Template.leadingEllipses rest with
      | zero =>
        rw [hcount, Template.elementCopies] at hhere
        obtain ⟨w, hw, rfl⟩ := map_eq_ok_iff.1 hhere
        exact fun v hv => List.mem_singleton.1 hv ▸ code_instantiate helement hb hw
      | succ more =>
        rw [hcount, Template.elementCopies] at hhere
        exact code_copies (fun r v hr hv => code_instantiate helement hr hv) hb hhere

end

/-! ### Transformers -/

theorem code_firstInstance? {sameBinding : String → Bool} {literals : List String}
    {operands : Value} {clauses : List (Value × Value)} (hoperands : D.Code operands)
    (hclauses : ∀ p ∈ clauses, D.Code p.2) {v : Value}
    (h : Transformer.firstInstance? sameBinding literals operands clauses = .ok (some v)) :
    D.Code v := by
  induction clauses with
  | nil => cases h
  | cons clause rest ih =>
    obtain ⟨hclause, hrest⟩ := List.forall_mem_cons.1 hclauses
    rw [Transformer.firstInstance?] at h
    split at h
    · cases h
    · split at h
      · next b hmatch =>
        obtain ⟨w, hw, heq⟩ := map_eq_ok_iff.1 h
        cases heq
        exact code_instantiate hclause (.of_matchForm? hoperands hmatch) hw
      · -- the pattern does not match, so a later clause is the one
        exact ih hrest h

/-- **The expansion of a form is code.** -/
theorem code_expand {store : Store} {name : String} {literals : List String}
    {clauses : List (Value × Value)} {definition use : Env} {form : List Value}
    (hform : ∀ e ∈ form, D.Code e) (hclauses : ∀ p ∈ clauses, D.Code p.2) {v : Value}
    (h : Transformer.expand store name literals clauses definition form use = .ok v) :
    D.Code v := by
  rw [Transformer.expand] at h
  split at h
  · cases h
  · next expansion hfirst =>
    cases h
    -- the operands of the form are code, and so is the list of them
    have hoperands : D.Code (.ofList form.tail) :=
      .ofList fun e he => hform e (List.mem_of_mem_tail he)
    exact code_firstInstance? hoperands hclauses hfirst
  · cases h

/-- The clauses of a transformer are parts of the forms that they were read from, and every pattern
compiles. -/
theorem code_clausesOf {literals : List String} {forms : List Value}
    {clauses : List (Value × Value)} (hforms : ∀ f ∈ forms, D.Code f)
    (h : Transformer.clausesOf literals forms = .ok clauses) :
    ∀ p ∈ clauses, (∃ c, Transformer.compileClause literals p.1 = .ok c)
      ∧ D.Code p.1 ∧ D.Code p.2 := by
  induction forms generalizing clauses with
  | nil =>
    cases h
    exact fun _ hmem => absurd hmem List.not_mem_nil
  | cons form rest ih =>
    obtain ⟨hform, hrest⟩ := List.forall_mem_cons.1 hforms
    unfold Transformer.clausesOf at h
    split at h
    · next heq => cases heq
    · next pattern template self _ heq =>
      cases heq
      split at h
      · next c hc =>
        obtain ⟨others, hothers, rfl⟩ := map_eq_ok_iff.1 h
        have hparts := hform.of_list
        -- that the pattern compiles is kept, for a transformer holds no other patterns
        exact List.forall_mem_cons.2
          ⟨⟨⟨c, hc⟩, hparts pattern (by simp), hparts template (by simp)⟩, ih hrest hothers⟩
      · cases h
    · cases h

/-- **A new transformer keeps to the discipline**: its clauses are parts of the form that describes
it. -/
theorem data_make {name : String} {rules : Value} {env : Env} (hname : D.Name name)
    (hrules : D.Code rules) (henv : D.Scope env) {v : Value}
    (h : Transformer.make name rules env = .ok v) : D.Data v := by
  unfold Transformer.make at h
  split at h
  · next literalList clauseForms self =>
    split at h
    · split at h
      · cases h
      · next literals _ =>
        obtain ⟨clauses, hclauses, rfl⟩ := map_eq_ok_iff.1 h
        have hforms : ∀ f ∈ clauseForms, D.Code f := fun f hf => hrules.of_list f (by simp [hf])
        have hall := code_clausesOf hforms hclauses
        -- the transformer keeps the literals without repetitions, which compiles to the same
        refine .transformer (fun _ => rfl) (fun _ p hp => ?_) hname (fun p hp => (hall p hp).2.1)
          (fun p hp => (hall p hp).2.2) henv
        obtain ⟨c, hc⟩ := (hall p hp).1
        exact ⟨c, (Transformer.compileClause_eraseDups literals p.1).trans hc⟩
    · cases h
  · cases h

end SmallLisp.Discipline
