import SmallLisp.Proofs.Rules.Acceptance
import SmallLisp.Proofs.Rules.Renaming
import SmallLisp.Proofs.Rules.RoundTrip
import Mathlib.Algebra.Group.End
import Mathlib.Data.Fintype.Sum

/-!
# Names of pattern variables

What the variables of a clause are called is of no account. If in each clause of a transformer the
variables are given other names, in the pattern and in the template, then the transformer expands
every form to what it was before (`Transformer.expands_renamed`). The new names have to differ from
each other and to be free: no literal, no ellipsis and no other symbol of the template
(`Transformer.Renames`). They may well be the old names of other variables.

Such a renaming need not keep all names apart, because a new name may be that of something which
does not occur in the clause. But on the names that do occur it is the same as one that does, namely
as a permutation that takes the old names and the new ones to each other (`exists_perm_of_injOn`).
With that the laws of `Proofs.Rules.Renaming` apply.
-/

namespace SmallLisp

/-- A finite part of a renaming that keeps names apart is part of a permutation, which leaves all
names alone that are neither old nor new. -/
theorem exists_perm_of_injOn {vars : List String} {ρ : String → String}
    (h : ∀ x ∈ vars, ∀ y ∈ vars, ρ x = ρ y → x = y) :
    ∃ π : Equiv.Perm String, (∀ x ∈ vars, π x = ρ x) ∧
      ∀ y, y ∉ vars → (∀ x ∈ vars, ρ x ≠ y) → π y = y := by
  -- on a finite set, the variables with their new names, the injection extends to a permutation
  let names : Finset String := (vars ++ vars.map ρ).toFinset
  have hnames : ∀ y, y ∈ names ↔ y ∈ vars ∨ ∃ x ∈ vars, ρ x = y := by
    intro y
    simp [names]
  let old : Set names := {x | (x : String) ∈ vars}
  have hmaps : Set.MapsTo (fun x : names => ρ x) old names :=
    fun x hx => (hnames (ρ x)).2 (.inr ⟨x, hx, rfl⟩)
  have hinj : Set.InjOn (fun x : names => ρ x) old :=
    fun x hx y hy heq => Subtype.ext (h x hx y hy heq)
  obtain ⟨g, hg⟩ := hmaps.exists_equiv_extend_of_card_eq (Fintype.card_coe names) hinj
  refine ⟨Equiv.Perm.ofSubtype g, fun x hx => ?_, fun y hold hnew => ?_⟩
  · have hmem : x ∈ names := (hnames x).2 (.inl hx)
    exact (Equiv.Perm.ofSubtype_apply_of_mem g hmem).trans (hg ⟨x, hmem⟩ hx)
  · -- a name that is neither old nor new is outside the set and stays
    refine Equiv.Perm.ofSubtype_apply_of_not_mem g fun hmem => ?_
    rcases (hnames y).1 hmem with hvar | ⟨x, hx, heq⟩
    · exact hold hvar
    · exact hnew x hx heq

namespace Transformer

open Pattern Template

/-! ### Renamed clauses -/

/-- The variables in the operands of a pattern. -/
def variablesOf (literals : List String) (operands : List Value) : List String :=
  (occurrencesIn literals 0 operands).map Prod.fst

/-- New names for some variables, as a renaming of all names. -/
def newName (vars : List String) (ρ : String → String) (name : String) : String :=
  if name ∈ vars then ρ name else name

/-- The new names for the variables of a clause differ and are free in it. -/
structure Renames (literals : List String) (operands : List Value) (template : Value)
    (ρ : String → String) : Prop where
  injective : ∀ x ∈ variablesOf literals operands, ∀ y ∈ variablesOf literals operands,
    ρ x = ρ y → x = y
  literal : ∀ x ∈ variablesOf literals operands, ρ x ∉ literals
  ellipsis : ∀ x ∈ variablesOf literals operands, ρ x ≠ ellipsis
  other : ∀ x ∈ variablesOf literals operands, ∀ y ∈ symbolsFrom [] template,
    y ∉ variablesOf literals operands → ρ x ≠ y

/-- The second clause is the first one with its variables renamed, in the pattern after its keyword
and in the template. It may be made of other lists. -/
inductive RenamedClause (literals : List String) : Value → Value → Prop where
  | mk {operands operands' : List Value} {template template' : Value} (ρ : String → String)
      (keyword : Value) (pattern pattern' clause clause' : Option Identity) :
      Renames literals operands template ρ →
      operands'.map Value.plain
        = operands.map (Value.rename (newName (variablesOf literals operands) ρ)) →
      template'.plain = template.rename (newName (variablesOf literals operands) ρ) →
      RenamedClause literals (.list [.list (keyword :: operands) pattern, template] clause)
        (.list [.list (keyword :: operands') pattern', template'] clause')

/-- The second rules are the first ones with the variables of each clause renamed. -/
inductive RenamedRules (literals : List String) : Value → Value → Prop where
  | mk {clauses clauses' : List Value} (keyword : Value) (names : List Value)
      (list list' self self' : Option Identity) :
      List.Forall₂ (RenamedClause literals) clauses clauses' →
      RenamedRules literals (.list (keyword :: .list names list :: clauses) self)
        (.list (keyword :: .list names list' :: clauses') self')

/-- The two clauses are compiled, match the same forms, and have the same instance wherever they
match. -/
def SameInstances (literals : List String) (clause clause' : Value × Value) : Prop :=
  ∃ c c', compileClause literals clause.1 = .ok c ∧ compileClause literals clause'.1 = .ok c' ∧
    ∀ sameBinding form, Option.Rel
      (fun b b' =>
        Corresponds SyntaxFault.Alike id (instantiate clause.2 b) (instantiate clause'.2 b'))
      (c.matchForm? sameBinding form) (c'.matchForm? sameBinding form)

variable {literals : List String}

/-- The new names come from a permutation of all the names, which leaves the literals, the ellipsis
and the other symbols of the template alone. -/
theorem exists_perm_of_renames {operands : List Value} {template : Value} {ρ : String → String}
    (hρ : Renames literals operands template ρ) {root : Pattern}
    (hw : Written literals operands root) :
    ∃ π : Equiv.Perm String, RenamesVariables literals π ∧
      operands.map (Value.rename (newName (variablesOf literals operands) ρ))
        = operands.map (Value.rename π) ∧
      template.rename (newName (variablesOf literals operands) ρ) = template.rename π ∧
      ∀ name ∈ symbolsFrom [] template, name ∉ variablesOf literals operands → π name = name := by
  have hvars : ∀ name, name ∈ root.vars ↔ name ∈ variablesOf literals operands :=
    fun name => (hw.vars_perm 0).mem_iff
  obtain ⟨π, hold, hrest⟩ := exists_perm_of_injOn hρ.injective
  have hπ : RenamesVariables literals π := by
    refine ⟨π.injective, fun name hname => ?_, ?_⟩
    · exact hrest name (fun hvar => (hw.of_mem_vars ((hvars name).2 hvar)).1 hname)
        fun x hx heq => hρ.literal x hx (heq ▸ hname)
    · exact hrest ellipsis
        (fun hvar => (hw.of_mem_vars ((hvars ellipsis).2 hvar)).2 rfl) hρ.ellipsis
  have hother : ∀ name ∈ symbolsFrom [] template, name ∉ variablesOf literals operands →
      π name = name := fun name hname hvar =>
    hrest name hvar fun x hx => hρ.other x hx name hname hvar
  -- the permutation also moves new names, back to old ones, but these do not occur in the clause
  have hsame : ∀ name, (name ∉ variablesOf literals operands → π name = name) →
      newName (variablesOf literals operands) ρ name = π name := by
    intro name hname
    by_cases hvar : name ∈ variablesOf literals operands
    · rw [newName, if_pos hvar, hold name hvar]
    · rw [newName, if_neg hvar, hname hvar]
  refine ⟨π, hπ, ?_, rename_congr template fun name hname => hsame name (hother name hname), hother⟩
  rw [← Value.renameAll_eq_map, ← Value.renameAll_eq_map]
  refine renameAll_congr operands fun name hname => hsame name fun hvar => ?_
  -- what is written in a pattern and is no variable has kept its name
  rcases (hw.of_mem_symbols hname).resolve_left (mt (hvars name).1 hvar) with hliteral | rfl
  · exact hπ.literal name hliteral
  · exact hπ.ellipsis

/-- **A renamed clause has the same instances.** -/
theorem sameInstances_of_renames {operands operands' : List Value} {template template' : Value}
    {ρ : String → String} (hρ : Renames literals operands template ρ)
    (hoperands : operands'.map Value.plain
      = operands.map (Value.rename (newName (variablesOf literals operands) ρ)))
    (htemplate : template'.plain = template.rename (newName (variablesOf literals operands) ρ))
    {keyword : Value} {self self' : Option Identity} {c : CompiledPattern}
    (hc : compileClause literals (.list (keyword :: operands) self) = .ok c) :
    SameInstances literals (.list (keyword :: operands) self, template)
      (.list (keyword :: operands') self', template') := by
  have hcompile : compile (.ofList operands) literals = .ok c := hc
  obtain ⟨_, _, heq, hw, -, -⟩ := compile_spec hcompile
  obtain ⟨rfl, -⟩ := Value.list.inj heq
  -- a permutation has an inverse, so that a table of bindings can be renamed as a whole
  obtain ⟨π, hπ, hpattern, hcopy, hother⟩ := exists_perm_of_renames hρ hw
  have hc' : compileClause literals (.list (keyword :: operands') self') = .ok (c.rename π) := by
    have hplain := compileClause_plain literals (.list (keyword :: operands') self')
    rw [Value.plain_list, List.map_cons, hoperands, hpattern] at hplain
    exact hplain.eq_ok_iff.2
      ((compileClause_rename hπ keyword keyword.plain operands self none).eq_ok hc)
  refine ⟨c, c.rename π, hc, hc', fun sameBinding form => ?_⟩
  rw [c.matchForm?_rename hπ.injective]
  cases hmatch : c.matchForm? sameBinding form with
  | none => exact .none
  | some b =>
    obtain ⟨σ, forms, _, rfl, -, hbinds⟩ :=
      CompiledPattern.exists_yields_of_matchForm? hcompile hmatch
    -- a symbol that is bound to nothing is no variable
    have hspares : Spares π (symbolsFrom [] template) b := by
      refine fun name hname hnone => hother name hname fun hvar => ?_
      rw [hbinds.inside name ((hw.vars_perm 0).mem_iff.2 hvar)] at hnone
      cases hnone
    have hplain := instantiate_plain template' (Table.rename π b)
    rw [htemplate, hcopy] at hplain
    exact .some ((instantiate_rename hπ.injective hπ.ellipsis template hspares).join hplain)

/-! ### Renamed rules -/

/-- The first clause that matches is at the same place. -/
theorem firstInstance?_of_sameInstances {clauses clauses' : List (Value × Value)}
    (h : List.Forall₂ (SameInstances literals) clauses clauses') (sameBinding : String → Bool)
    (form : Value) :
    Corresponds SyntaxFault.Alike id (firstInstance? sameBinding literals form clauses)
      (firstInstance? sameBinding literals form clauses') := by
  induction h with
  | nil => exact .ok none
  | @cons clause clause' _ _ hclause _ ih =>
    obtain ⟨pattern, template⟩ := clause
    obtain ⟨pattern', template'⟩ := clause'
    obtain ⟨c, c', hc, hc', hsame⟩ := hclause
    rw [firstInstance?, firstInstance?, hc, hc']
    have hmatch := hsame sameBinding form
    dsimp only at hmatch ⊢
    generalize c.matchForm? sameBinding form = r at hmatch
    generalize c'.matchForm? sameBinding form = r' at hmatch
    -- the two patterns match the same forms, so the same clause is the first on both sides
    cases hmatch with
    | none => exact ih
    | some hinstance => exact hinstance.map fun _ => rfl

theorem clausesOf_eraseDups (literals : List String) (forms : List Value) :
    clausesOf literals.eraseDups forms = clausesOf literals forms := by
  fun_induction clausesOf literals forms with
  | case1 => rfl
  | case2 pattern template self rest c hc ih =>
    rw [clausesOf, compileClause_eraseDups, hc, ih]
  | case3 pattern template self rest fault hc =>
    rw [clausesOf, compileClause_eraseDups, hc]
  | case4 form rest hshape => rw [clausesOf]; exact hshape

/-- Renamed clauses are accepted, one by one. -/
theorem exists_clauses_of_renamed {forms forms' : List Value} {clauses : List (Value × Value)}
    (h : List.Forall₂ (RenamedClause literals) forms forms')
    (hclauses : clausesOf literals forms = .ok clauses) :
    ∃ clauses', clausesOf literals forms' = .ok clauses' ∧
      List.Forall₂ (SameInstances literals) clauses clauses' := by
  induction h generalizing clauses with
  | nil =>
    cases hclauses
    exact ⟨[], rfl, .nil⟩
  | cons hclause _ ih =>
    cases hclause with
    | @mk operands operands' template template' ρ keyword self self' _ _ hρ hoperands htemplate =>
      rw [clausesOf] at hclauses
      split at hclauses
      · next c hc =>
        obtain ⟨others, hothers, rfl⟩ := map_eq_ok_iff.1 hclauses
        obtain ⟨others', hothers', hsame⟩ := ih hothers
        -- the patterns of this clause compile, and have the same instances
        obtain ⟨c, c', hfound, hc', hrel⟩ : SameInstances literals
            (.list (keyword :: operands) self, template)
            (.list (keyword :: operands') self', template') :=
          sameInstances_of_renames hρ hoperands htemplate hc
        refine ⟨_, ?_, .cons ⟨c, c', hfound, hc', hrel⟩ hsame⟩
        rw [clausesOf, hc', hothers']
        rfl
      · cases hclauses

/-- Rules with a list of literals are accepted if the literals are names and the clauses are. -/
theorem make_eq_ok_iff {name : String} {keyword : Value} {forms clauseForms : List Value}
    {list self : Option Identity} {env : Env} {v : Value} :
    make name (.list (keyword :: .list forms list :: clauseForms) self) env = .ok v ↔
      keyword = .symbol "syntax-rules" ∧ ∃ literals clauses, literalNames forms = .ok literals ∧
        clausesOf literals clauseForms = .ok clauses ∧
        v = .transformer name literals.eraseDups clauses env none := by
  constructor
  · intro h
    unfold make at h
    split at h
    · next literalList clauseForms' _ heq =>
      -- the rules are the list the statement speaks of
      obtain ⟨hhead, htail⟩ := List.cons.inj (Value.list.inj heq).1
      obtain ⟨hliterals, rfl⟩ := List.cons.inj htail
      subst hhead hliterals
      dsimp only at h
      split at h
      · cases h
      · next literals hliterals =>
        obtain ⟨clauses, hclauses, rfl⟩ := map_eq_ok_iff.1 h
        exact ⟨rfl, literals, clauses, hliterals, hclauses, rfl⟩
    · cases h
  · rintro ⟨rfl, literals, clauses, hliterals, hclauses, rfl⟩
    rw [make, hliterals]
    exact map_eq_ok_iff.2 ⟨clauses, hclauses, rfl⟩

/-- **The names of pattern variables are of no account.** If the variables of each clause are
renamed, then the renamed rules are accepted as well, and in whatever environments a form stands,
the two transformers expand it to the same expression, or both report malformed syntax. -/
theorem expands_renamed {name : String} {rules rules' : Value} {definition : Env}
    {literals : List String} {clauses : List (Value × Value)}
    (hmake : make name rules definition = .ok (.transformer name literals clauses definition none))
    (hrenamed : RenamedRules literals rules rules') :
    ∃ clauses',
      make name rules' definition = .ok (.transformer name literals clauses' definition none) ∧
        ∀ store form use,
          match expand store name literals clauses definition form use,
            expand store name literals clauses' definition form use with
          | .ok expansion, .ok expansion' => expansion' = expansion
          | .error fault, .error fault' =>
            (Failure.malformed fault).code = 203 ∧ (Failure.malformed fault').code = 203
          | _, _ => False := by
  obtain ⟨keyword, forms, _, _, _, _, hforms⟩ := hrenamed
  obtain ⟨rfl, names, found, hnames, hfound, heq⟩ := make_eq_ok_iff.1 hmake
  obtain ⟨-, rfl, rfl, -, -⟩ := Value.transformer.inj heq
  -- the transformer keeps each literal once, the clauses are compiled with all of them
  rw [← clausesOf_eraseDups] at hfound
  obtain ⟨clauses', hclauses', hsame⟩ := exists_clauses_of_renamed hforms hfound
  rw [clausesOf_eraseDups] at hclauses'
  refine ⟨clauses', make_eq_ok_iff.2 ⟨rfl, names, clauses', hnames, hclauses', rfl⟩, ?_⟩
  intro store form use
  have hinstance := firstInstance?_of_sameInstances hsame (store.agree definition use)
    (.ofList form.tail)
  rw [expand, expand]
  refine hinstance.elim (fun expansion => ?_) fun _ => ⟨rfl, rfl⟩
  -- that no clause matches is reported in the same way on both sides
  cases expansion with
  | none => exact ⟨rfl, rfl⟩
  | some v => rfl

/-- Two variables that take each other's name, one of them under two ellipses. -/
theorem expands_renamed_arrows :
    let operands := fun k v : String =>
      [Value.ofList [.symbol k, .symbol "=>", .symbol v, .symbol "..."],
        .symbol "..."]
    let template := fun k v : String => Value.ofList [.symbol "table",
      .ofList [.symbol k, .symbol v, .symbol "..."], .symbol "..."]
    let pattern := fun k v : String => Value.ofList (.symbol "_" :: operands k v)
    let rules := fun k v : String => Value.ofList [.symbol "syntax-rules", .ofList [.symbol "=>"],
      .ofList [pattern k v, template k v]]
    let clauses := [(pattern "k" "v", template "k" "v")]
    let form := [Value.symbol "t", .ofList [.symbol "a", .symbol "=>", .string "1", .string "2"],
      .ofList [.symbol "b", .symbol "=>"]]
    let expansion := Value.ofList [.symbol "table",
      .ofList [.symbol "a", .string "1", .string "2"], .ofList [.symbol "b"]]
    make "t" (rules "k" "v") [] = .ok (.transformer "t" ["=>"] clauses [] none) ∧
      RenamedRules ["=>"] (rules "k" "v") (rules "v" "k") ∧
      expand .empty "t" ["=>"] clauses [] form [] = .ok expansion ∧
      ∃ clauses', make "t" (rules "v" "k") [] = .ok (.transformer "t" ["=>"] clauses' [] none) ∧
        expand .empty "t" ["=>"] clauses' [] form [] = .ok expansion := by
  intro operands template pattern rules clauses form expansion
  have hmake : make "t" (rules "k" "v") [] = .ok (.transformer "t" ["=>"] clauses [] none) := rfl
  have hexpand : expand .empty "t" ["=>"] clauses [] form [] = .ok expansion := rfl
  -- the two variables are exchanged, so no renaming one after the other would do
  let ρ : String → String := fun name => if name = "k" then "v" else "k"
  have hρ : Renames ["=>"] (operands "k" "v") (template "k" "v") ρ := by
    refine ⟨?_, ?_, ?_, ?_⟩
    all_goals decide
  have hrenamed : RenamedRules ["=>"] (rules "k" "v") (rules "v" "k") :=
    .mk _ _ none none none none (.cons (.mk ρ _ none none none none hρ rfl rfl) .nil)
  obtain ⟨clauses', hmake', hsame⟩ := expands_renamed hmake hrenamed
  refine ⟨hmake, hrenamed, hexpand, clauses', hmake', ?_⟩
  have hinstance := hsame .empty form []
  rw [hexpand] at hinstance
  -- the second expansion cannot fail where the first does not
  cases hexpand' : expand .empty "t" ["=>"] clauses' [] form [] with
  | ok expansion' =>
    rw [hexpand'] at hinstance
    exact congrArg Except.ok hinstance
  | error fault =>
    rw [hexpand'] at hinstance
    cases hinstance

end Transformer

end SmallLisp
