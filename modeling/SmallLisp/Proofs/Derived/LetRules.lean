import SmallLisp.Proofs.Derived.Binding
import SmallLisp.Proofs.Rules.Expansion
import SmallLisp.Proofs.Rules.Renaming

/-!
# A `let` by rules

That a `let` stands for the application of a `lambda` can be written as rules, too:

    (syntax-rules () ((_ ((name value) ...) body ...) ((lambda (name ...) body ...) value ...)))

The rules and the rewriting that is built in come to the same (`Transformer.letRules_expands`), for
any number of bindings and expressions and in whatever environments. What the pattern stands for is
read off the pairs of the form (`Transformer.yields_letRules`): one repetition has its name and its
expression together, and the trees of the two variables are the columns of this table. The template
takes one column after the other.
-/

namespace SmallLisp

namespace Template

variable {b : Bindings}

/-- An element without ellipses has one copy, in front of those of the others. -/
theorem instantiateAll_single {element v : Value} {rest vs : List Value}
    (hfirst : element.isEllipsis = false) (hnext : leadingEllipses rest = 0)
    (hv : instantiate element b = .ok v) (hvs : instantiateAll true rest b = .ok vs)
    (after : Bool) :
    instantiateAll after (element :: rest) b = .ok (v :: vs) := by
  rw [instantiateAll_element hfirst, hnext, elementCopies, hv, hvs]
  rfl

theorem instantiate_of_instantiateAll {elements vs : List Value}
    (h : instantiateAll false elements b = .ok vs) :
    instantiate (.ofList elements) b = .ok (.ofList vs) := by
  rw [Value.ofList, instantiate, h]
  rfl

/-- A variable that is repeated, at the end of a list, has all its forms there. -/
theorem instantiateAll_repeated {name : String} {vs : List Value} (hname : name ≠ ellipsis)
    (h : b.get? name = some (.repeated (vs.map .form))) (after : Bool) :
    instantiateAll after [.symbol name, .symbol ellipsis] b = .ok vs := by
  have hfirst : (Value.symbol name).isEllipsis = false := by
    simpa [Value.isEllipsis_symbol] using hname
  have hcopies : elementCopies (.symbol name) 1 b = .ok vs := by
    rw [elementCopies_eq]
    simp only [variableCopies, h, List.mapM_map]
    exact mapM_ok_of_forall₂ (List.forall₂_same.2 fun _ _ => rfl)
  rw [instantiateAll_element hfirst, leadingEllipses_ellipsis, hcopies, instantiateAll_ellipsis]
  exact congrArg Except.ok (List.append_nil vs)

end Template

namespace Transformer

open Pattern Template

/-! ### The rules -/

/-- The pattern `(_ ((name value) ...) body ...)`. -/
def letPattern : Value :=
  .ofList [.symbol "_", .ofList [.ofList [.symbol "name", .symbol "value"], .symbol "..."],
    .symbol "body", .symbol "..."]

/-- The template `((lambda (name ...) body ...) value ...)`. -/
def letTemplate : Value :=
  .ofList [.ofList [.symbol "lambda", .ofList [.symbol "name", .symbol "..."], .symbol "body",
    .symbol "..."], .symbol "value", .symbol "..."]

/-- The rules of a `let`. -/
def letRules : Value :=
  .ofList [.symbol "syntax-rules", .ofList [], .ofList [letPattern, letTemplate]]

/-- What the pattern compiles to. -/
def compiledLet : CompiledPattern where
  root := .sublist
    (.repetition (.sublist (.variable "name" (.variable "value" .empty)) .empty) ["value", "name"])
    (.repetition (.variable "body" .empty) ["body"])
  depths := .ofPairs [("body", 1), ("value", 1), ("name", 1)]

theorem compileClause_letPattern {pattern : Value} (h : pattern.plain = letPattern) :
    compileClause [] pattern = .ok compiledLet := by
  have hsame := compileClause_plain [] pattern
  rw [h] at hsame
  exact hsame.eq_ok_iff.2 rfl

/-- What the rules describe: a clause without literals. -/
theorem make_letRules {rules : Value} (h : rules.plain = letRules) (name : String) (env : Env) :
    ∃ pattern template, pattern.plain = letPattern ∧ template.plain = letTemplate
      ∧ make name rules env = .ok (.transformer name [] [(pattern, template)] env none) := by
  -- each of the lists may be any object, so they are taken apart one by one
  obtain ⟨_, _, rfl, helements⟩ := Value.exists_of_plain_eq_ofList h
  obtain ⟨keyword, _, rfl, hkeyword, helements⟩ := List.map_eq_cons_iff.1 helements
  obtain ⟨literals, _, rfl, hliterals, helements⟩ := List.map_eq_cons_iff.1 helements
  obtain ⟨clause, _, rfl, hclause, hnil⟩ := List.map_eq_cons_iff.1 helements
  obtain rfl := List.map_eq_nil_iff.1 hnil
  obtain rfl : keyword = .symbol "syntax-rules" := Value.eq_of_plain_eq hkeyword rfl
  obtain ⟨_, _, rfl, hnil⟩ := Value.exists_of_plain_eq_ofList hliterals
  obtain rfl := List.map_eq_nil_iff.1 hnil
  obtain ⟨_, _, rfl, hparts⟩ := Value.exists_of_plain_eq_ofList hclause
  obtain ⟨pattern, _, rfl, hpattern, hparts⟩ := List.map_eq_cons_iff.1 hparts
  obtain ⟨template, _, rfl, htemplate, hnil⟩ := List.map_eq_cons_iff.1 hparts
  obtain rfl := List.map_eq_nil_iff.1 hnil
  refine ⟨pattern, template, hpattern, htemplate, ?_⟩
  rw [make, literalNames]
  dsimp only
  rw [clausesOf, compileClause_letPattern hpattern]
  rfl

/-! ### An expansion -/

/-- The trees that the variables of the rules have in a `let`. -/
def letTrees (pairs : List (String × Value)) (body : List Value) : Assignment
  | "name" => .repeated (((pairs.map Prod.fst).map .symbol).map .form)
  | "value" => .repeated ((pairs.map Prod.snd).map .form)
  | _ => .repeated (body.map .form)

/-- **The pattern stands for the operands of a `let`**, under the names and the expressions of its
pairs. -/
theorem yields_letRules {operands : List Value} {pairs : List (String × Value)} {body : List Value}
    (h : Derived.Pairs operands pairs body) (sameBinding : String → Bool) :
    compiledLet.root.Yields sameBinding (letTrees pairs body) operands := by
  obtain ⟨bindings, self, rfl, hpairs⟩ := h.bindings
  -- what the two variables stand for in the repetition that matches one pair
  let row : String × Value → Assignment := fun p name =>
    if name = "name" then .form (.symbol p.1) else .form p.2
  have hrows : List.Forall₂ (fun row binding => Yields sameBinding
      (.sublist (.variable "name" (.variable "value" .empty)) .empty) row [binding])
        (pairs.map row) bindings := by
    refine List.forall₂_map_left_iff.2 (hpairs.flip.imp ?_)
    rintro p _ ⟨self', rfl⟩
    exact ⟨_, self', [], rfl, ⟨.symbol p.1, [p.2], rfl, rfl, p.2, [], rfl, rfl, rfl⟩, rfl⟩
  -- each form of the body is matched by itself
  have hbody : List.Forall₂ (fun row v => Yields sameBinding (.variable "body" .empty) row [v])
      (body.map fun v _ => .form v) body :=
    List.forall₂_map_left_iff.2 (List.forall₂_same.2 fun v _ => ⟨v, [], rfl, rfl, rfl⟩)
  refine ⟨bindings, self, body, rfl, ⟨_, ?_, hrows⟩, _, ?_, hbody⟩
  · intro name hname
    have hcases : name = "value" ∨ name = "name" := by simpa [vars] using hname
    rcases hcases with rfl | rfl
    · simp only [letTrees, List.map_map]
      rfl
    · simp only [letTrees, List.map_map]
      rfl
  · intro name hname
    obtain rfl : name = "body" := List.mem_singleton.1 hname
    rw [List.map_map]
    rfl

/-- **The template is the application of a `lambda`**, where its variables have these trees. -/
theorem instantiate_letTemplate {pairs : List (String × Value)} {body : List Value} {b : Bindings}
    (h : compiledLet.root.Binds (letTrees pairs body) ∅ b) :
    instantiate letTemplate b = .ok (Derived.application pairs body) := by
  have hname := h.inside "name" (by decide)
  have hvalue := h.inside "value" (by decide)
  have hbody := h.inside "body" (by decide)
  have hlambda := h.outside "lambda" (by decide)
  -- the tag is the only symbol of the template that is no variable
  have htag : instantiate (.symbol "lambda") b = .ok (.symbol "lambda") := by
    rw [instantiate, hlambda]
    rfl
  have hparameters : instantiate (.ofList [.symbol "name", .symbol "..."]) b
      = .ok (.ofList ((pairs.map Prod.fst).map .symbol)) :=
    instantiate_of_instantiateAll (instantiateAll_repeated (by decide) hname false)
  have hoperator : instantiate (.ofList [.symbol "lambda",
      .ofList [.symbol "name", .symbol "..."], .symbol "body", .symbol "..."]) b
        = .ok (Derived.operator (pairs.map Prod.fst) body) := by
    have hrest := instantiateAll_repeated (by decide) hbody true
    have hlist := instantiateAll_single rfl rfl hparameters hrest true
    exact instantiate_of_instantiateAll (instantiateAll_single rfl rfl htag hlist false)
  have hvalues := instantiateAll_repeated (by decide) hvalue true
  exact instantiate_of_instantiateAll (instantiateAll_single rfl rfl hoperator hvalues false)

/-- **The rules of a `let` and the rewriting that is built in are one.** Made from any list that
reads as these rules, in whatever environment, the transformer expands every `let` that the
rewriting accepts, and to the same expression, whatever is bound where the form stands. -/
theorem letRules_expands {rules : Value} (hrules : rules.plain = letRules) (name : String)
    (definition : Env) :
    ∃ literals clauses,
      make name rules definition = .ok (.transformer name literals clauses definition none) ∧
        ∀ form plain, Derived.combination form = .ok plain → ∀ store use,
          expand store name literals clauses definition form use = .ok plain := by
  obtain ⟨pattern, template, hpattern, htemplate, hmake⟩ := make_letRules hrules name definition
  refine ⟨[], [(pattern, template)], hmake, fun form plain hplain store use => ?_⟩
  cases form with
  | nil => cases hplain
  | cons tag operands =>
    obtain ⟨pairs, body, hpairs, rfl⟩ := (Derived.combination_eq_ok_iff tag).1 hplain
    have hcompile := compileClause_letPattern hpattern
    obtain ⟨_, _, _, _, hparts⟩ := compileClause_eq_ok hcompile
    obtain ⟨_, _, _, hwritten, -, hnd⟩ := compile_spec hparts
    obtain ⟨b, hmatch, hbinds⟩ :=
      (yields_letRules hpairs (store.agree definition use)).matchForms hwritten hnd ∅
    -- the template differs from the known one in identities alone, which a copy does not have
    have hcopy : instantiate template b = .ok (Derived.application pairs body) := by
      rw [(instantiate_plain template b).eq_ok_iff, htemplate]
      exact instantiate_letTemplate hbinds
    have hoperands : compiledLet.matchForm? (store.agree definition use)
        (.ofList (tag :: operands).tail) = some b := hmatch
    -- no clause comes before this one
    have hfirst : firstInstance? (store.agree definition use) [] (.ofList (tag :: operands).tail) []
        = .ok none := rfl
    exact (expand_first hfirst hcompile hoperands name).trans hcopy

/-- Rules that are objects of their own, and a `let` of two names. -/
theorem letRules_expands_pairs :
    let pair := fun (name : String) (v : Value) => Value.list [.symbol name, v] (some 7)
    let rules : Value := .list [.symbol "syntax-rules", .list [] (some 1),
      .list [letPattern, letTemplate] (some 2)] (some 3)
    let form : List Value :=
      [.symbol "let", .ofList [pair "x" (.string "a"), pair "y" (.symbol "x")],
      .symbol "y", .symbol "x"]
    let plain : Value := .ofList [.ofList [.symbol "lambda", .ofList [.symbol "x", .symbol "y"],
      .symbol "y", .symbol "x"], .string "a", .symbol "x"]
    rules.plain = letRules ∧ Derived.combination form = .ok plain ∧ ∃ literals clauses,
      make "my-let" rules [] = .ok (.transformer "my-let" literals clauses [] none) ∧
        expand .empty "my-let" literals clauses [] form [] = .ok plain := by
  intro pair rules form plain
  have hrules : rules.plain = letRules := rfl
  have hplain : Derived.combination form = .ok plain := rfl
  obtain ⟨literals, clauses, hmake, hexpand⟩ := letRules_expands hrules "my-let" []
  exact ⟨hrules, hplain, literals, clauses, hmake, hexpand form plain hplain .empty []⟩

end Transformer

end SmallLisp
