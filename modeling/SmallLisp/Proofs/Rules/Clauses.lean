import SmallLisp.Proofs.Rules.Variables

/-!
# Rules that are accepted, and the clause that decides

The rules of a transformer are checked once, when it is made, and exactly those are accepted that
are written as rules (`Transformer.WrittenRules`): names of literals, and then clauses of which each
has a pattern that compiles and a template, which is not looked at. Everything else is malformed
syntax.

No use can find a pattern to be malformed after that. For a use there are two possibilities: no
clause matches, or there is a first one that does (`Transformer.exists_decisive`). In the second
case what becomes of its template becomes of the use. That the template cannot be copied is no
reason to try a later clause, so the later clauses may as well be others; and no keyword is compared
with anything. All of this is in `Transformer.make_exact`.
-/

namespace SmallLisp

namespace Transformer

open Template

/-! ### Rules as they are written -/

/-- A list of a pattern and a template. The pattern is a list of any keyword and of operands that
compile. -/
inductive WrittenClause (literals : List String) : Value → Value × Value → Prop where
  | mk {operands : List Value} {c : CompiledPattern} (keyword template : Value)
      (pattern self : Option Identity) :
      Pattern.compile (.ofList operands) literals = .ok c →
      WrittenClause literals (.list [.list (keyword :: operands) pattern, template] self)
        (.list (keyword :: operands) pattern, template)

/-- A list of the symbol `syntax-rules`, a list of the names of the literals, and the clauses. -/
inductive WrittenRules (literals : List String) (clauses : List (Value × Value)) :
    Value → Prop where
  | mk {forms : List Value} (list self : Option Identity) :
      List.Forall₂ (WrittenClause literals) forms clauses →
      WrittenRules literals clauses
        (.list (.symbol "syntax-rules" :: .list (literals.map .symbol) list :: forms) self)

theorem literalNames_eq_ok_iff {forms : List Value} {literals : List String} :
    literalNames forms = .ok literals ↔ forms = literals.map .symbol := by
  constructor
  · intro h
    fun_induction literalNames forms generalizing literals with
    | case1 =>
      cases h
      rfl
    | case2 name rest ih =>
      obtain ⟨names, hnames, rfl⟩ := map_eq_ok_iff.1 h
      rw [List.map_cons, ← ih hnames]
    -- a literal that is no symbol is refused
    | case3 => cases h
  · rintro rfl
    induction literals with
    | nil => rfl
    | cons name literals ih =>
      rw [List.map_cons, literalNames, ih]
      rfl

theorem WrittenClause.exists_compiled {literals : List String} {form : Value}
    {clause : Value × Value}
    (h : WrittenClause literals form clause) : ∃ c, compileClause literals clause.1 = .ok c := by
  cases h with
  | mk keyword template pattern self hc => exact ⟨_, hc⟩

theorem clausesOf_eq_ok_iff {literals : List String} {forms : List Value}
    {clauses : List (Value × Value)} :
    clausesOf literals forms = .ok clauses
      ↔ List.Forall₂ (WrittenClause literals) forms clauses := by
  constructor
  · intro h
    fun_induction clausesOf literals forms generalizing clauses with
    | case1 =>
      cases h
      exact .nil
    | case2 pattern template self rest c hc ih =>
      obtain ⟨others, hothers, rfl⟩ := map_eq_ok_iff.1 h
      obtain ⟨keyword, operands, identity, rfl, hcompile⟩ := compileClause_eq_ok hc
      exact .cons (.mk keyword template identity self hcompile) (ih hothers)
    | case3 => cases h
    | case4 =>
      -- something that is no list of two
      cases h
  · intro h
    induction h with
    | nil => rfl
    | cons hclause _ ih =>
      obtain ⟨c, hc⟩ := hclause.exists_compiled
      cases hclause
      rw [clausesOf, hc, ih]
      rfl

/-- **A transformer is made of exactly the rules.** -/
theorem make_eq_ok_iff_written {name : String} {rules : Value} {env : Env} {v : Value} :
    make name rules env = .ok v ↔ ∃ literals clauses, WrittenRules literals clauses rules
      ∧ v = .transformer name literals.eraseDups clauses env none := by
  constructor
  · intro h
    -- the second element has to be a list before anything else is looked at
    obtain ⟨keyword, forms, list, clauseForms, self, rfl⟩ : ∃ keyword forms list clauseForms self,
        rules = .list (keyword :: .list forms list :: clauseForms) self := by
      unfold make at h
      split at h
      · split at h
        · exact ⟨_, _, _, _, _, rfl⟩
        · cases h
      · cases h
    obtain ⟨rfl, literals, clauses, hliterals, hclauses, rfl⟩ := make_eq_ok_iff.1 h
    obtain rfl := literalNames_eq_ok_iff.1 hliterals
    exact ⟨literals, clauses, .mk list self (clausesOf_eq_ok_iff.1 hclauses), rfl⟩
  · rintro ⟨literals, clauses, ⟨list, self, hforms⟩, rfl⟩
    exact make_eq_ok_iff.2 ⟨rfl, literals, clauses, literalNames_eq_ok_iff.2 rfl,
      clausesOf_eq_ok_iff.2 hforms, rfl⟩

/-! ### The clause that decides -/

/-- The operands match the pattern of the clause. -/
def ClauseMatches (literals : List String) (sameBinding : String → Bool) (operands : List Value)
    (clause : Value × Value) (b : Bindings) : Prop :=
  ∃ c, compileClause literals clause.1 = .ok c
    ∧ c.matchForm? sameBinding (.ofList operands) = some b

/-- The operands match the pattern of none of the clauses. -/
def NoneMatches (literals : List String) (sameBinding : String → Bool) (operands : List Value)
    (clauses : List (Value × Value)) : Prop :=
  ∀ clause ∈ clauses, ∀ b, ¬ ClauseMatches literals sameBinding operands clause b

/-- The clauses are the same but for what stands in the keyword position of the pattern. -/
inductive Rekeyed : Value × Value → Value × Value → Prop where
  | same (clause : Value × Value) : Rekeyed clause clause
  | keyword (keyword keyword' : Value) (operands : List Value) (template : Value)
      (self self' : Option Identity) :
      Rekeyed (.list (keyword :: operands) self, template)
        (.list (keyword' :: operands) self', template)

variable {literals : List String} {sameBinding : String → Bool} {operands : List Value}

theorem Rekeyed.compileClause_eq {clause clause' : Value × Value} (h : Rekeyed clause clause')
    (literals : List String) :
    compileClause literals clause'.1 = compileClause literals clause.1 := by
  cases h <;> rfl

theorem Rekeyed.template_eq {clause clause' : Value × Value} (h : Rekeyed clause clause') :
    clause'.2 = clause.2 := by
  cases h <;> rfl

/-- Keywords do not matter to the instance that is found. -/
theorem firstInstance?_rekeyed {clauses clauses' : List (Value × Value)}
    (h : List.Forall₂ Rekeyed clauses clauses') (form : Value) :
    firstInstance? sameBinding literals form clauses'
      = firstInstance? sameBinding literals form clauses := by
  induction h with
  | nil => rfl
  | @cons clause clause' _ _ hclause _ ih =>
    obtain ⟨pattern, template⟩ := clause
    obtain ⟨pattern', template'⟩ := clause'
    -- what stands in the place of the keyword is not looked at
    have hcompile : compileClause literals pattern' = compileClause literals pattern :=
      hclause.compileClause_eq literals
    obtain rfl : template' = template := hclause.template_eq
    rw [firstInstance?, firstInstance?, ih, hcompile]

/-- Of clauses that compile and do not match there is no instance. -/
theorem firstInstance?_eq_none {clauses : List (Value × Value)}
    (hcompiled : ∀ clause ∈ clauses, ∃ c, compileClause literals clause.1 = .ok c)
    (hnone : NoneMatches literals sameBinding operands clauses) :
    firstInstance? sameBinding literals (.ofList operands) clauses = .ok none := by
  induction clauses with
  | nil => rfl
  | cons clause clauses ih =>
    obtain ⟨hhere, hrest⟩ := List.forall_mem_cons.1 hnone
    obtain ⟨⟨c, hc⟩, hothers⟩ := List.forall_mem_cons.1 hcompiled
    -- the pattern compiles and does not match, so the next clause is tried
    have hmatch : c.matchForm? sameBinding (.ofList operands) = none :=
      Option.eq_none_iff_forall_ne_some.2 fun b hb => hhere b ⟨c, hc, hb⟩
    rw [firstInstance?, hc]
    simp only [hmatch]
    exact ih hothers hrest

/-- No clause matches, or there is a first one. -/
theorem exists_decisive (literals : List String) (sameBinding : String → Bool)
    (operands : List Value)
    (clauses : List (Value × Value)) :
    NoneMatches literals sameBinding operands clauses
      ∨ ∃ earlier decisive later b, clauses = earlier ++ decisive :: later
          ∧ NoneMatches literals sameBinding operands earlier
          ∧ ClauseMatches literals sameBinding operands decisive b := by
  induction clauses with
  | nil => exact .inl nofun
  | cons clause clauses ih =>
    -- either this clause matches, or it is one more that comes before the decisive one
    by_cases hhere : ∃ b, ClauseMatches literals sameBinding operands clause b
    · obtain ⟨b, hb⟩ := hhere
      exact .inr ⟨[], clause, clauses, b, rfl, nofun, hb⟩
    · have hno := not_exists.1 hhere
      rcases ih with hnone | ⟨earlier, decisive, later, b, rfl, hearlier, hb⟩
      · exact .inl (List.forall_mem_cons.2 ⟨hno, hnone⟩)
      · exact .inr
          ⟨clause :: earlier, decisive, later, b, rfl, List.forall_mem_cons.2 ⟨hno, hearlier⟩, hb⟩

section Expand

variable {store : Store} {definition use : Env} {clauses clauses' : List (Value × Value)}
  {form : List Value}

/-- A use that no clause matches is rejected for that. -/
theorem expand_unmatched
    (hcompiled : ∀ clause ∈ clauses, ∃ c, compileClause literals clause.1 = .ok c)
    (hnone : NoneMatches literals (store.agree definition use) form.tail clauses)
    (hrekeyed : List.Forall₂ Rekeyed clauses clauses') (name : String) :
    expand store name literals clauses' definition form use
      = .error (.noClause name (Value.ofList form).write) := by
  rw [expand, firstInstance?_rekeyed hrekeyed, firstInstance?_eq_none hcompiled hnone]

/-- A use that none of some clauses matches, but the one after them, becomes what the template of
that one becomes. -/
theorem expand_decisive
    (hcompiled : ∀ clause ∈ clauses, ∃ c, compileClause literals clause.1 = .ok c)
    (hnone : NoneMatches literals (store.agree definition use) form.tail clauses)
    (hrekeyed : List.Forall₂ Rekeyed clauses clauses') {decisive decisive' : Value × Value}
    {b : Bindings} (hb : ClauseMatches literals (store.agree definition use) form.tail decisive b)
    (hdecisive : Rekeyed decisive decisive') (later : List (Value × Value)) (name : String) :
    expand store name literals (clauses' ++ decisive' :: later) definition form use
      = instantiate decisive.2 b := by
  obtain ⟨c, hc, hmatch⟩ := hb
  -- other keywords change neither what is passed over nor what the decisive pattern compiles to
  have hpassed : firstInstance? (store.agree definition use) literals (.ofList form.tail) clauses'
      = .ok none := by
    rw [firstInstance?_rekeyed hrekeyed, firstInstance?_eq_none hcompiled hnone]
  have hpattern : compileClause literals decisive'.1 = .ok c :=
    (hdecisive.compileClause_eq literals).trans hc
  rw [expand_first hpassed hpattern hmatch name, hdecisive.template_eq]

end Expand

/-- **Rules are checked once, and the first clause that matches decides.** A transformer is made of
what is written as rules and of nothing else, and the only complaint is about malformed syntax. Its
patterns compile whenever they are consulted. A use that no clause matches is rejected for just
that. Otherwise the use becomes what the template of the first clause that matches becomes, be that
an expansion or a fault, whatever clauses come later and whatever stands in the
keyword positions. -/
theorem make_exact (name : String) (rules : Value) (definition : Env) :
    match make name rules definition with
    | .ok v => ∃ literals clauses, WrittenRules literals clauses rules
        ∧ v = .transformer name literals.eraseDups clauses definition none
        ∧ (∀ clause ∈ clauses, ∃ c, compileClause literals.eraseDups clause.1 = .ok c)
        ∧ ∀ (store : Store) (operands : List Value) (use : Env),
          (NoneMatches literals.eraseDups (store.agree definition use) operands clauses
            ∧ ∀ clauses' form, List.Forall₂ Rekeyed clauses clauses' → form.tail = operands →
              expand store name literals.eraseDups clauses' definition form use
                = .error (.noClause name (Value.ofList form).write))
          ∨ ∃ earlier decisive later b, clauses = earlier ++ decisive :: later
            ∧ NoneMatches literals.eraseDups (store.agree definition use) operands earlier
            ∧ ClauseMatches literals.eraseDups (store.agree definition use) operands decisive b
            ∧ ∀ earlier' decisive' later' form, List.Forall₂ Rekeyed earlier earlier' →
              Rekeyed decisive decisive' → form.tail = operands →
              expand store name literals.eraseDups (earlier' ++ decisive' :: later') definition
                  form use = instantiate decisive.2 b
    | .error fault => (¬ ∃ literals clauses, WrittenRules literals clauses rules)
        ∧ (Failure.malformed fault).code = 203 := by
  cases hmake : make name rules definition with
  -- rules that are written as they should be would have been accepted
  | error fault =>
    refine ⟨?_, rfl⟩
    rintro ⟨literals, clauses, hwritten⟩
    rw [make_eq_ok_iff_written.2 ⟨literals, clauses, hwritten, rfl⟩] at hmake
    cases hmake
  | ok v =>
    obtain ⟨literals, clauses, hwritten, rfl⟩ := make_eq_ok_iff_written.1 hmake
    have hcompiled :
        ∀ clause ∈ clauses, ∃ c, compileClause literals.eraseDups clause.1 = .ok c := by
      obtain ⟨list, self, hforms⟩ := hwritten
      refine forall_mem_of_forall₂ hforms (fun _ _ => trivial) fun form clause _ hclause => ?_
      -- the literals are stored once each, and patterns do not notice
      rw [compileClause_eraseDups]
      exact hclause.exists_compiled
    refine ⟨literals, clauses, hwritten, rfl, hcompiled, fun store operands use => ?_⟩
    -- no clause matches the operands, or one of them is the first that does
    rcases exists_decisive literals.eraseDups (store.agree definition use) operands clauses with
      hnone | ⟨earlier, decisive, later, b, rfl, hnone, hb⟩
    · refine .inl ⟨hnone, ?_⟩
      rintro clauses' form hrekeyed rfl
      exact expand_unmatched hcompiled hnone hrekeyed name
    · refine .inr ⟨earlier, decisive, later, b, rfl, hnone, hb, ?_⟩
      rintro earlier' decisive' later' form hrekeyed hdecisive rfl
      exact expand_decisive
        (fun clause hclause => hcompiled clause (List.mem_append_left _ hclause))
        hnone hrekeyed hb hdecisive later' name

end Transformer

end SmallLisp
