import SmallLisp.Proofs.Rules.Copy
import SmallLisp.Rules.Transformer

/-!
# Matching and instantiating are inverse

A list that is accepted as a pattern is also a template, and the two readings undo one another,
provided that every ellipsis repeats a variable:

* `CompiledPattern.instantiate_of_match` — a form that matches is rebuilt from the bindings, up to
  the identity of its lists; so a clause of a transformer whose template is its own pattern expands
  a use to the operands of that use;
* `CompiledPattern.match_of_fits` — bindings that fit the pattern, of the recorded depths and in
  agreement on the number of repetitions, can be instantiated, and the list that comes out matches
  with the bindings that went in.

Neither refers to the order in which compilation, matching and instantiation go through a list. They
meet in the relation `Pattern.Yields`: a match finds an assignment under which the pattern stands
for the form, fitting bindings are such an assignment (`exists_yields`), and what a pattern stands
for is what it instantiates to.
-/

namespace SmallLisp

/-! ### Bindings that fit a pattern -/

namespace Tree

/-- The repetitions of a tree, one for each element of its outermost level. -/
def repetitions : Tree → List Tree
  | .form _ => []
  | .repeated trees => trees

/-- Whether a tree is a form under that many levels of repetition. -/
def HasDepth : Nat → Tree → Prop
  | 0, .form _ => True
  | depth + 1, .repeated trees => ∀ tree ∈ trees, tree.HasDepth depth
  | _, _ => False

theorem exists_form_of_hasDepth {tree : Tree} (h : tree.HasDepth 0) :
    ∃ value, tree = .form value := by
  cases tree with
  | form value => exact ⟨value, rfl⟩
  | repeated trees => cases h

theorem exists_repeated_of_hasDepth {tree : Tree} {depth : Nat} (h : tree.HasDepth (depth + 1)) :
    ∃ trees, tree = .repeated trees ∧ ∀ inner ∈ trees, inner.HasDepth depth := by
  cases tree with
  | form value => cases h
  | repeated trees => exact ⟨trees, rfl, h⟩

end Tree

/-- The assignment of one repetition: every variable has what stands in its tree at that place. -/
def Assignment.repetition (σ : Assignment) (place : Nat) : Assignment :=
  fun name => (σ name).repetitions.getD place (.repeated [])

namespace Assignment

variable {σ : Assignment} {name : String}

/-- A tree is the column of what its variable has in each repetition. -/
theorem repetitions_eq_column {count : Nat} (h : (σ name).repetitions.length = count) :
    (σ name).repetitions = ((List.range count).map σ.repetition).map (· name) := by
  refine List.ext_getElem (by simp [h]) fun place hplace _ => ?_
  simp [repetition, hplace]

/-- In one repetition every tree has one level less. -/
theorem hasDepth_repetition {depth place : Nat} (h : (σ name).HasDepth (depth + 1))
    (hplace : place < (σ name).repetitions.length) : (σ.repetition place name).HasDepth depth := by
  obtain ⟨trees, htrees, hinner⟩ := Tree.exists_repeated_of_hasDepth h
  rw [htrees] at hplace
  change place < trees.length at hplace
  rw [repetition, htrees, Tree.repetitions, List.getD_eq_getElem?_getD,
    List.getElem?_eq_getElem hplace, Option.getD_some]
  exact hinner _ (List.getElem_mem hplace)

end Assignment

namespace Pattern

/-- The variables of an ellipsis have as many repetitions as one another, and so have, within each
repetition, those of every ellipsis inside it. -/
def Aligned : Pattern → Assignment → Prop
  | .empty, _ => True
  | .variable _ rest, σ => rest.Aligned σ
  | .literal _ rest, σ => rest.Aligned σ
  | .sublist head rest, σ => head.Aligned σ ∧ rest.Aligned σ
  | .repetition repeated _, σ =>
    (∀ name ∈ repeated.vars, ∀ other ∈ repeated.vars,
      (σ name).repetitions.length = (σ other).repetitions.length)
      ∧ ∀ place, (∀ name ∈ repeated.vars, place < (σ name).repetitions.length) →
          repeated.Aligned (σ.repetition place)

end Pattern

/-- The tree that bindings give to each variable. -/
def Bindings.assignment (b : Bindings) : Assignment :=
  fun name => (b.get? name).getD (.repeated [])

theorem Bindings.assignment_of_get? {b : Bindings} {name : String} {tree : Tree}
    (h : b.get? name = some tree) : b.assignment name = tree := by
  rw [assignment, h]
  rfl

/-- Bindings that bind what the pattern can bind: its variables and nothing else, each to a tree of
the recorded depth, in agreement on the number of repetitions. -/
structure CompiledPattern.Fits (p : CompiledPattern) (b : Bindings) : Prop where
  /-- The variables, and nothing else, are bound. -/
  binds : ∀ name, name ∈ b.names ↔ name ∈ p.depths.names
  /-- Every tree has as many levels as there are ellipses above its variable. -/
  hasDepth : ∀ name depth tree, p.depths.get? name = some depth → b.get? name = some tree →
    tree.HasDepth depth
  /-- The variables of one ellipsis agree on the number of repetitions. -/
  aligned : p.root.Aligned b.assignment

namespace Pattern

variable {sameBinding : String → Bool} {symbols : List String} {elements : List Value} {p : Pattern}
  {σ : Assignment}

/-! ### Fitting bindings stand for forms -/

/-- One more ellipsis above a pattern is one more above each of its variables. -/
theorem leveled_succ (p : Pattern) (depth : Nat) :
    p.leveled (depth + 1) = (p.leveled depth).map fun q => (q.1, q.2 + 1) := by
  induction p generalizing depth with
  | empty => rfl
  | «variable» name rest ih =>
    rw [leveled, leveled, List.map_append, ih]
    rfl
  | literal name rest ih => exact ih depth
  | sublist head rest ihHead ihRest =>
    rw [leveled, leveled, List.map_append, ihHead, ihRest]
  | repetition repeated names ih => exact ih (depth + 1)

theorem mem_vars_of_mem_leveled {name : String} {level depth : Nat}
    (h : (name, level) ∈ p.leveled depth) : name ∈ p.vars := by
  rw [← map_fst_leveled p depth]
  exact List.mem_map_of_mem h

theorem exists_mem_leveled {name : String} (h : name ∈ p.vars) (depth : Nat) :
    ∃ level, (name, level) ∈ p.leveled depth := by
  rw [← map_fst_leveled p depth] at h
  obtain ⟨⟨_, level⟩, hmem, rfl⟩ := List.mem_map.1 h
  exact ⟨level, hmem⟩

/-- A pattern with a single element stands for single forms. -/
theorem Yields.exists_eq_singleton {element : Value} {forms : List Value}
    (hw : Written symbols [element] p) (h : p.Yields sameBinding σ forms) :
    ∃ form, forms = [form] := by
  -- a pattern of one element that is not followed by an ellipsis
  cases hw with
  | «variable» _ _ hrest =>
    cases hrest
    obtain ⟨form, _, rfl, -, rfl⟩ := h
    exact ⟨form, rfl⟩
  | literal _ _ hrest =>
    cases hrest
    obtain ⟨_, rfl, -, rfl⟩ := h
    exact ⟨_, rfl⟩
  | sublist _ hrest =>
    cases hrest
    obtain ⟨inner, self, _, rfl, -, rfl⟩ := h
    exact ⟨.list inner self, rfl⟩

/-- **Trees that fit are those of some forms.** If the literals of a pattern can be met, and the
trees of its variables have their depths and agree on the numbers of repetitions, then the pattern
stands for some forms under them. -/
theorem exists_yields (hw : Written symbols elements p) (hvaried : p.Varied)
    (hliterals : ∀ name ∈ p.literals, sameBinding name = true)
    (hdepth : ∀ name depth, (name, depth) ∈ p.leveled 0 → (σ name).HasDepth depth)
    (haligned : p.Aligned σ) : ∃ forms, p.Yields sameBinding σ forms := by
  induction hw generalizing σ with
  | empty => exact ⟨[], rfl⟩
  | @«variable» name _ rest _ _ _ ih =>
    obtain ⟨others, hothers⟩ := ih hvaried hliterals
      (fun n d hn => hdepth n d (List.mem_append_left _ hn)) haligned
    obtain ⟨form, hform⟩ := Tree.exists_form_of_hasDepth
      (hdepth name 0 (List.mem_append_right _ (List.mem_singleton_self _)))
    exact ⟨form :: others, form, others, rfl, hform, hothers⟩
  | @literal name _ rest _ _ _ ih =>
    obtain ⟨others, hothers⟩ := ih hvaried
      (fun n hn => hliterals n (List.mem_cons_of_mem name hn)) hdepth haligned
    exact ⟨_, others, rfl, hliterals name List.mem_cons_self, hothers⟩
  | @sublist _ _ _ head rest _ _ ihHead ihRest =>
    obtain ⟨inner, hinner⟩ := ihHead hvaried.1
      (fun n hn => hliterals n (List.mem_append_left _ hn))
      (fun n d hn => hdepth n d (List.mem_append_right _ hn)) haligned.1
    obtain ⟨others, hothers⟩ := ihRest hvaried.2
      (fun n hn => hliterals n (List.mem_append_right _ hn))
      (fun n d hn => hdepth n d (List.mem_append_left _ hn)) haligned.2
    exact ⟨.ofList inner :: others, inner, none, others, rfl, hinner, hothers⟩
  | @repetition element repeated hwritten ih =>
    -- below the ellipsis every tree has one level less
    have hlevel : ∀ n d, (n, d) ∈ repeated.leveled 0 → (σ n).HasDepth (d + 1) := by
      intro n d hn
      refine hdepth n (d + 1) ?_
      rw [leveled, leveled_succ]
      exact List.mem_map_of_mem hn
    have htrees : ∀ n ∈ repeated.vars, σ n = .repeated (σ n).repetitions := by
      intro n hn
      obtain ⟨d, hd⟩ := exists_mem_leveled hn 0
      obtain ⟨trees, htrees, -⟩ := Tree.exists_repeated_of_hasDepth (hlevel n d hd)
      rw [htrees]
      rfl
    -- the ellipsis has a variable, and all of them have its number of repetitions
    obtain ⟨first, hfirst⟩ := List.exists_mem_of_ne_nil _ hvaried.1
    have hcount : ∀ n ∈ repeated.vars,
        (σ n).repetitions.length = (σ first).repetitions.length :=
      fun n hn => haligned.1 n hn first hfirst
    -- the trees of one repetition fit what is repeated, which therefore stands for a form
    have hforms : ∀ place ∈ List.range (σ first).repetitions.length,
        ∃ form, repeated.Yields sameBinding (σ.repetition place) [form] := by
      intro place hplace
      rw [List.mem_range] at hplace
      obtain ⟨forms, hyields⟩ := ih hvaried.2 hliterals
        (fun n d hn => Assignment.hasDepth_repetition (hlevel n d hn)
          (hcount n (mem_vars_of_mem_leveled hn) ▸ hplace))
        (haligned.2 place fun n hn => hcount n hn ▸ hplace)
      obtain ⟨form, rfl⟩ := hyields.exists_eq_singleton hwritten
      exact ⟨form, hyields⟩
    obtain ⟨forms, hrows⟩ := exists_forall₂ hforms
    refine ⟨forms, (List.range (σ first).repetitions.length).map σ.repetition, ?_, ?_⟩
    · intro n hn
      rw [htrees n hn, Assignment.repetitions_eq_column (hcount n hn)]
    · exact List.forall₂_map_left_iff.2 hrows

end Pattern

/-! ### The two round trips -/

namespace Transformer

/-- Clauses that do not match are passed over. -/
theorem firstInstance?_append {sameBinding : String → Bool} {literals : List String}
    {operands : Value} {earlier : List (Value × Value)}
    (h : firstInstance? sameBinding literals operands earlier = .ok none)
    (later : List (Value × Value)) :
    firstInstance? sameBinding literals operands (earlier ++ later)
      = firstInstance? sameBinding literals operands later := by
  induction earlier with
  | nil => rfl
  | cons clause earlier ih =>
    obtain ⟨pattern, template⟩ := clause
    rw [List.cons_append]
    rw [firstInstance?] at h ⊢
    cases hcompile : compileClause literals pattern with
    | error fault => simp [hcompile] at h
    | ok compiled =>
      simp only [hcompile] at h ⊢
      cases hmatch : compiled.matchForm? sameBinding operands with
      | none =>
        simp only [hmatch] at h
        exact ih h
      -- had it matched, the search would have ended there
      | some b =>
        simp only [hmatch] at h
        obtain ⟨_, -, hsome⟩ := map_eq_ok_iff.1 h
        cases hsome

/-- **The first clause that matches decides**: what becomes of its template becomes of the form. -/
theorem expand_first {store : Store} {literals : List String} {definition use : Env}
    {earlier later : List (Value × Value)} {pattern template : Value} {form : List Value}
    {c : CompiledPattern} {b : Bindings}
    (hearlier : firstInstance? (store.agree definition use) literals (.ofList form.tail) earlier
      = .ok none)
    (hc : compileClause literals pattern = .ok c)
    (hmatch : c.matchForm? (store.agree definition use) (.ofList form.tail) = some b)
    (name : String) :
    expand store name literals (earlier ++ (pattern, template) :: later) definition form use
      = Template.instantiate template b := by
  rw [expand, firstInstance?_append hearlier, firstInstance?, hc]
  simp only [hmatch]
  cases Template.instantiate template b <;> rfl

end Transformer

namespace CompiledPattern

open Pattern

variable {elements : List Value} {self : Option Identity} {literals : List String}
  {c : CompiledPattern}

theorem matchForm?_eq_some {sameBinding : String → Bool} {form : Value} {b : Bindings} :
    c.matchForm? sameBinding form = some b ↔
      ∃ forms self, form = .list forms self ∧ c.root.matchForms sameBinding forms ∅ = some b := by
  constructor
  · intro h
    cases form with
    | list forms self => exact ⟨forms, self, rfl, h⟩
    | _ => cases h
  · rintro ⟨forms, self, rfl, h⟩
    exact h

/-- What matches a compiled pattern has an assignment, which the bindings are read off. -/
theorem exists_yields_of_matchForm? {pattern : Value} (hc : compile pattern literals = .ok c)
    {sameBinding : String → Bool} {form : Value} {b : Bindings}
    (h : c.matchForm? sameBinding form = some b) :
    ∃ σ forms self, form = .list forms self ∧ c.root.Yields sameBinding σ forms
      ∧ c.root.Binds σ ∅ b := by
  obtain ⟨elements, _, -, hw, -, hnd⟩ := compile_spec hc
  obtain ⟨forms, self, rfl, hmatch⟩ := matchForm?_eq_some.1 h
  obtain ⟨σ, hyields, hbinds⟩ := exists_yields_of_matchForms hw hnd hmatch
  exact ⟨σ, forms, self, rfl, hyields, hbinds⟩

/-- The list of a pattern, read as a template, gives back what matched it. -/
theorem exists_copy_of_match {sameBinding : String → Bool} {form : Value} {b : Bindings}
    (hc : compile (.list elements self) literals = .ok c) (hvaried : c.root.Varied)
    (h : c.matchForm? sameBinding form = some b) :
    ∃ copy, Template.instantiate (.list elements self) b = .ok copy ∧ copy.plain = form.plain := by
  obtain ⟨_, _, heq, hw, -, -⟩ := compile_spec hc
  cases heq
  obtain ⟨σ, forms, self', rfl, hyields, hbinds⟩ := exists_yields_of_matchForm? hc h
  obtain ⟨vs, hvs, hplain, -⟩ := hyields.instantiate hw hvaried hbinds self
  refine ⟨.ofList vs, hvs, ?_⟩
  rw [Value.plain_ofList, Value.plain_list, hplain]
  rfl

/-- The pattern `(op ((k => v ...) ...))`, in which `=>` is to be a literal. -/
def arrows : List Value :=
  [.symbol "op", .ofList [.ofList [.symbol "k", .symbol "=>", .symbol "v", .symbol "..."],
    .symbol "..."]]

/-- What `arrows` compiles to. -/
def compiledArrows : CompiledPattern where
  root := .variable "op" (.sublist
    (.repetition
      (.sublist (.variable "k" (.literal "=>" (.repetition (.variable "v" .empty) ["v"])))
      .empty) ["v", "k"]) .empty)
  depths := .ofPairs [("v", 2), ("k", 1), ("op", 0)]

/-- The trees of `(f ((a => "1" "2") (b =>)))` in `arrows`. -/
def arrowTrees : Bindings :=
  .ofPairs [("op", .form (.symbol "f")),
    ("v", .repeated [.repeated [.form (.string "1"), .form (.string "2")], .repeated []]),
    ("k", .repeated [.form (.symbol "a"), .form (.symbol "b")])]

/-- The operands of a use that `arrows` matches. -/
def arrowOperands : List Value :=
  [.symbol "f", .ofList [.ofList [.symbol "a", .symbol "=>", .string "1", .string "2"],
    .ofList [.symbol "b", .symbol "=>"]]]

theorem varied_compiledArrows : compiledArrows.root.Varied := by
  simp [compiledArrows, Varied, vars]

/-- **Instantiating undoes matching.** If every ellipsis of an accepted pattern repeats a variable,
then whatever form matches it, in whatever environments, the list of the pattern instantiates to a
list equal to the form. So a transformer whose first matching clause has its own pattern, without
the keyword, as its template expands a use to the operands of that use. -/
theorem instantiate_of_match (hc : compile (.list elements self) literals = .ok c)
    (hvaried : c.root.Varied) (store : Store) (definition use : Env) :
    (∀ form b, c.matchForm? (store.agree definition use) form = some b →
      ∃ copy, Template.instantiate (.list elements self) b = .ok copy ∧ copy.plain = form.plain
        ∧ (form.isAlike form = true → copy.isAlike form = true))
      ∧ ∀ name keyword whole earlier later form b,
        Transformer.firstInstance? (store.agree definition use) literals (.ofList form.tail)
          earlier = .ok none →
        c.matchForm? (store.agree definition use) (.ofList form.tail) = some b →
        ∃ expansion,
          Transformer.expand store name literals
            (earlier ++ (.list (keyword :: elements) whole, .list elements self) :: later)
            definition form use = .ok expansion
          ∧ expansion.plain = (Value.ofList form.tail).plain := by
  constructor
  · intro form b h
    obtain ⟨copy, hcopy, hplain⟩ := exists_copy_of_match hc hvaried h
    exact ⟨copy, hcopy, hplain, Value.isAlike_of_plain_eq hplain⟩
  · intro name keyword whole earlier later form b hearlier h
    obtain ⟨copy, hcopy, hplain⟩ := exists_copy_of_match hc hvaried h
    refine ⟨copy, ?_, hplain⟩
    -- the keyword is dropped before the pattern is compiled
    have hclause : Transformer.compileClause literals (.list (keyword :: elements) whole) = .ok c :=
      hc
    exact (Transformer.expand_first hearlier hclause h name).trans hcopy

theorem instantiate_of_match_arrows :
    (∃ copy, Template.instantiate (.ofList arrows) arrowTrees = .ok copy
      ∧ copy.plain = (Value.ofList arrowOperands).plain)
      ∧ ∃ expansion, Transformer.expand .empty "swap" ["=>"]
          [(.ofList [.symbol "_"], .ofList []),
            (.ofList (.symbol "_" :: arrows), .ofList arrows)] []
          (.symbol "swap" :: arrowOperands) [] = .ok expansion
        ∧ expansion.plain = (Value.ofList arrowOperands).plain := by
  have hc : compile (.ofList arrows) ["=>"] = .ok compiledArrows := rfl
  obtain ⟨hinstantiate, hexpand⟩ := instantiate_of_match hc varied_compiledArrows .empty [] []
  obtain ⟨copy, hcopy, hplain, -⟩ := hinstantiate (.ofList arrowOperands) arrowTrees rfl
  exact ⟨⟨copy, hcopy, hplain⟩,
    hexpand "swap" (.symbol "_") none [(.ofList [.symbol "_"], .ofList [])] []
      (.symbol "swap" :: arrowOperands) arrowTrees rfl rfl⟩

/-- **Matching undoes instantiating.** If every ellipsis of an accepted pattern repeats a variable
and its literals mean the same in both environments, then bindings that fit the pattern instantiate
its list, and what comes out matches with every variable bound to its tree. -/
theorem match_of_fits (hc : compile (.list elements self) literals = .ok c)
    (hvaried : c.root.Varied) (store : Store) (definition use : Env)
    (hliterals : ∀ name ∈ c.root.literals, store.resolve definition name = store.resolve use name)
    {b : Bindings} (hb : c.Fits b) :
    ∃ copies found, Template.instantiate (.list elements self) b = .ok (.ofList copies)
      ∧ c.matchForm? (store.agree definition use) (.ofList copies) = some found
      ∧ ∀ name, found.get? name = b.get? name := by
  obtain ⟨_, _, heq, hw, hdepths, hnd⟩ := compile_spec hc
  cases heq
  have hnames := names_depths_of_compile hc
  -- fitting bindings give the variables of the pattern their trees and bind nothing else
  have hvars : ∀ name ∈ c.root.vars, b.get? name = some (b.assignment name) := by
    intro name hname
    obtain ⟨tree, htree⟩ := (b.mem_names_iff name).1 ((hb.binds name).2 (hnames ▸ hname))
    rw [Bindings.assignment_of_get? htree, htree]
  have hothers : ∀ name, name ∉ c.root.vars → b.get? name = none := by
    intro name hname
    rw [b.get?_eq_none_iff, hb.binds, hnames]
    exact hname
  have hlevels : ∀ name depth, (name, depth) ∈ c.root.leveled 0 →
      (b.assignment name).HasDepth depth := by
    intro name depth hmem
    refine hb.hasDepth name depth _ ?_ (hvars name (mem_vars_of_mem_leveled hmem))
    exact Table.get?_of_mem_entries (hnames ▸ hnd) (hdepths ▸ hmem)
  have hagree : ∀ name ∈ c.root.literals, store.agree definition use name = true := by
    intro name hname
    rw [Store.agree, hliterals name hname, beq_self_eq_true]
  obtain ⟨forms, hyields⟩ := exists_yields hw hvaried hagree hlevels hb.aligned
  -- the copies are what the pattern stands for under the same trees, so they match with them
  obtain ⟨copies, hcopies, -, hyields'⟩ := hyields.instantiate hw hvaried ⟨hvars, hothers⟩ self
  obtain ⟨found, hfound, hbinds⟩ := hyields'.matchForms hw hnd ∅
  refine ⟨copies, found, hcopies, hfound, fun name => ?_⟩
  by_cases hname : name ∈ c.root.vars
  · rw [hbinds.inside name hname, hvars name hname]
  · rw [hbinds.outside name hname, hothers name hname]
    rfl

theorem fits_arrowTrees : compiledArrows.Fits arrowTrees where
  binds name := by
    have hnames : arrowTrees.names = ["op", "v", "k"] := rfl
    have hdepths : compiledArrows.depths.names = ["v", "k", "op"] := rfl
    rw [hnames, hdepths]
    simp only [List.mem_cons, List.not_mem_nil, or_false]
    tauto
  hasDepth name depth tree hdepth htree := by
    have hentries : compiledArrows.depths.entries = [("v", 2), ("k", 1), ("op", 0)] := rfl
    have hmem := Table.mem_entries_of_get? hdepth
    rw [hentries] at hmem
    simp only [List.mem_cons, Prod.mk.injEq, List.not_mem_nil, or_false] at hmem
    rcases hmem with ⟨rfl, rfl⟩ | ⟨rfl, rfl⟩ | ⟨rfl, rfl⟩
    all_goals
      cases htree
      simp [Tree.HasDepth]
  aligned := by
    -- the two groups have different lengths inside, but there are two of each
    have hk : arrowTrees.assignment "k"
        = .repeated [.form (.symbol "a"), .form (.symbol "b")] := rfl
    have hv : arrowTrees.assignment "v"
        = .repeated [.repeated [.form (.string "1"), .form (.string "2")], .repeated []] := rfl
    simp [compiledArrows, Aligned, vars, hk, hv, Tree.repetitions]

theorem match_of_fits_arrows :
    ∃ copies found, Template.instantiate (.ofList arrows) arrowTrees = .ok (.ofList copies)
      ∧ compiledArrows.matchForm? (Store.empty.agree [] []) (.ofList copies) = some found
      ∧ ∀ name, found.get? name = arrowTrees.get? name :=
  match_of_fits (rfl : compile (.ofList arrows) ["=>"] = .ok compiledArrows) varied_compiledArrows
    .empty [] [] (fun _ _ => rfl) fits_arrowTrees

end CompiledPattern

end SmallLisp
