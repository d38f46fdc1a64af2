import SmallLisp.Proofs.Rules.Shape

/-!
# As many ellipses as levels

Two ways lead from the tree of a variable to its forms. Flattening joins the forms of all branches.
A template in which the variable stands before ellipses takes the tree apart one level after the
other, binds the variable anew in each repetition, and splices what comes back.

If there are as many ellipses as levels, both give the same forms in the same order, however ragged
the tree is and wherever it is empty (`elementCopies_symbol`). With fewer ellipses some branch is
met that is still a repetition; an empty repetition on the way can hide this, but not one in which
there is a form (`elementCopies_symbol_eq_error`). What matching binds has the depth that
compilation has recorded, so this is what a template of a transformer does with its variables
(`CompiledPattern.splices_flat`).
-/

namespace SmallLisp

namespace Template

variable {name : String} {tree : Tree} {trees : List Tree} {b : Bindings} {count more : Nat}

/-! ### One level after the other -/

/-- One more ellipsis puts the copies that each repetition has into one sequence. Under the first
ellipsis each of them has one copy. -/
theorem elementCopies_succ (element : Value) (count : Nat) (b : Bindings) :
    elementCopies element (count + 1) b
      = (repetitions (symbolsFrom [] element) b >>= List.mapM (elementCopies element count)).map
          List.flatten := by
  cases count with
  | succ more => rfl
  | zero =>
    -- the innermost ellipsis has single copies, and does not join anything
    rw [elementCopies, copies]
    cases repetitions (symbolsFrom [] element) b with
    | error fault => rfl
    | ok rows => exact (flatten_mapM_singleton (instantiate element) rows).symm

/-- A repetition of a variable binds it to one of its trees. -/
theorem repetitions_symbol (h : b.get? name = some (.repeated trees)) :
    repetitions [name] b = .ok (trees.map (b.set name ·)) := by
  have hamong : repeatedAmong [name] b = [(name, trees)] := by
    rw [repeatedAmong, List.filterMap_cons, h]
    rfl
  rw [repetitions, hamong]
  exact congrArg Except.ok (rows_singleton name trees b)

/-- The copies of a variable that is repeated, by its repetitions. -/
theorem elementCopies_repeated (h : b.get? name = some (.repeated trees)) (count : Nat) :
    elementCopies (.symbol name) (count + 1) b
      = (trees.mapM fun tree => elementCopies (.symbol name) count (b.set name tree)).map
          List.flatten := by
  have hnames : symbolsFrom [] (.symbol name) = [name] := rfl
  have hrows : (trees.map (b.set name ·)).mapM (elementCopies (.symbol name) count)
      = trees.mapM fun tree => elementCopies (.symbol name) count (b.set name tree) := List.mapM_map
  rw [elementCopies_succ, hnames, repetitions_symbol h, ← hrows]
  rfl

/-! ### Enough ellipses, and too few -/

/-- **As many ellipses as levels** give the forms of the tree, from left to right. -/
theorem elementCopies_symbol (h : b.get? name = some tree) (hdepth : tree.HasDepth count) :
    elementCopies (.symbol name) count b = .ok tree.forms := by
  -- each ellipsis takes one level off, until the tree is a form
  induction count generalizing tree b with
  | zero =>
    obtain ⟨value, rfl⟩ := Tree.exists_form_of_hasDepth hdepth
    rw [elementCopies, instantiate, h]
    rfl
  | succ count ih =>
    obtain ⟨trees, rfl, hinner⟩ := Tree.exists_repeated_of_hasDepth hdepth
    have hcopies : (trees.mapM fun tree => elementCopies (.symbol name) count (b.set name tree))
        = .ok (trees.map Tree.forms) := by
      refine mapM_ok_of_forall₂ (List.forall₂_map_right_iff.2 (List.forall₂_same.2 ?_))
      exact fun tree htree => ih (b.get?_set_self name tree) (hinner tree htree)
    rw [elementCopies_repeated h, hcopies, Tree.forms, Tree.allForms_eq_flatMap, List.flatMap_def]
    rfl

/-- With fewer ellipses than levels nothing else goes wrong than that a level is left. -/
theorem faults_elementCopies_symbol (h : b.get? name = some tree)
    (hdepth : tree.HasDepth (more + 1 + count)) :
    Faults (· = .variableNeedsEllipsis name) (elementCopies (.symbol name) count b) := by
  -- with too few of them a sequence is left where a form should be
  induction count generalizing tree b with
  | zero =>
    obtain ⟨trees, rfl, -⟩ := Tree.exists_repeated_of_hasDepth hdepth
    rw [elementCopies, instantiate, h]
    exact .error rfl
  | succ count ih =>
    obtain ⟨trees, rfl, hinner⟩ := Tree.exists_repeated_of_hasDepth hdepth
    rw [elementCopies_repeated h]
    refine (Faults.mapM fun tree htree => ?_).map _
    exact ih (b.get?_set_self name tree) (hinner tree htree)

/-- **With fewer ellipses than levels** a tree with some form in it cannot be copied. -/
theorem elementCopies_symbol_eq_error (h : b.get? name = some tree)
    (hdepth : tree.HasDepth (more + 1 + count)) (hforms : tree.forms ≠ []) :
    elementCopies (.symbol name) count b = .error (.variableNeedsEllipsis name) := by
  induction count generalizing tree b with
  | zero =>
    obtain ⟨trees, rfl, -⟩ := Tree.exists_repeated_of_hasDepth hdepth
    rw [elementCopies, instantiate, h]
    rfl
  | succ count ih =>
    obtain ⟨trees, rfl, hinner⟩ := Tree.exists_repeated_of_hasDepth hdepth
    -- the form is in one of the repetitions, and the others do not fail in another way
    obtain ⟨tree, htree, hsome⟩ : ∃ tree ∈ trees, tree.forms ≠ [] := by
      rw [Tree.forms, Tree.allForms_eq_flatMap] at hforms
      simpa using hforms
    have hfault : (trees.mapM fun tree => elementCopies (.symbol name) count (b.set name tree))
        = .error (.variableNeedsEllipsis name) := by
      refine mapM_eq_error (fun other hother => ?_) htree
        (ih (b.get?_set_self name tree) (hinner tree htree) hsome)
      exact faults_elementCopies_symbol (b.get?_set_self name other) (hinner other hother)
    rw [elementCopies_repeated h, hfault]
    rfl

/-- The list of a variable and its ellipses has the copies of the variable. -/
theorem instantiate_ellipses (hname : name ≠ ellipsis) (count : Nat) (self : Option Identity)
    (b : Bindings) :
    instantiate (.list (.symbol name :: List.replicate count (.symbol ellipsis)) self) b
      = (elementCopies (.symbol name) count b).map .ofList := by
  have hfirst : (Value.symbol name).isEllipsis = false := by
    simpa [Value.isEllipsis_symbol] using hname
  -- all of the ellipses belong to the variable, and nothing comes after them
  rw [instantiate, instantiateAll_element hfirst, leadingEllipses_replicate,
    instantiateAll_replicate]
  cases elementCopies (.symbol name) count b with
  | error fault => rfl
  | ok copies => exact congrArg (fun vs => Except.ok (Value.ofList vs)) (List.append_nil copies)

end Template

namespace CompiledPattern

open Pattern Template

variable {pattern : Value} {literals : List String} {c : CompiledPattern}

/-- **A variable before as many ellipses as it has in its pattern** is replaced by exactly the forms
that it has matched, in order. With fewer ellipses the template is malformed as soon as there is one
such form. -/
theorem splices_flat (hc : compile pattern literals = .ok c) {store : Store} {definition use : Env}
    {form : Value} {b : Bindings} (h : c.matchForm? (store.agree definition use) form = some b)
    {name : String} {depth : Nat} (hdepth : c.depths.get? name = some depth) :
    ∃ forms, b.flatten.get? name = some forms
      ∧ (∀ self, instantiate
          (.list (.symbol name :: List.replicate depth (.symbol ellipsis)) self) b
            = .ok (.ofList forms))
      ∧ (forms ≠ [] → ∀ count < depth, ∀ self, ∃ fault, instantiate
          (.list (.symbol name :: List.replicate count (.symbol ellipsis)) self) b = .error fault
            ∧ (Failure.malformed fault).code = 203) := by
  obtain ⟨elements, _, -, hw, -, -⟩ := compile_spec hc
  obtain ⟨tree, htree, hlevels⟩ := exists_tree_of_depth hc h hdepth
  -- a variable named like the ellipsis would itself be taken for one
  have hname : name ≠ ellipsis :=
    (hw.of_mem_vars (mem_vars_of_mem_leveled ((get?_depths_iff hc).1 hdepth))).2
  refine ⟨tree.forms, ?_, fun self => ?_, fun hforms count hcount self => ?_⟩
  · rw [Bindings.get?_flatten (nodup_names_of_matchForm? h), htree]
    rfl
  · rw [instantiate_ellipses hname, elementCopies_symbol htree hlevels]
    rfl
  · obtain ⟨more, rfl⟩ : ∃ more, depth = more + 1 + count := ⟨depth - 1 - count, by omega⟩
    refine ⟨.variableNeedsEllipsis name, ?_, rfl⟩
    rw [instantiate_ellipses hname, elementCopies_symbol_eq_error htree hlevels hforms]
    rfl

/-- The variable `v` of `arrows` is under two ellipses, and the second of its repetitions
is empty. -/
theorem splices_flat_arrows :
    ∃ forms, arrowTrees.flatten.get? "v" = some forms
      ∧ instantiate (.ofList [.symbol "v", .symbol "...", .symbol "..."]) arrowTrees
          = .ok (.ofList forms)
      ∧ (forms ≠ [] → ∃ fault,
          instantiate (.ofList [.symbol "v", .symbol "..."]) arrowTrees = .error fault) := by
  have hc : compile (.ofList arrows) ["=>"] = .ok compiledArrows := rfl
  have h : compiledArrows.matchForm? (Store.empty.agree [] []) (.ofList arrowOperands)
      = some arrowTrees := rfl
  have hdepth : compiledArrows.depths.get? "v" = some 2 := rfl
  obtain ⟨forms, hflat, henough, hfew⟩ := splices_flat hc h hdepth
  refine ⟨forms, hflat, henough none, fun hforms => ?_⟩
  obtain ⟨fault, hfault, -⟩ := hfew hforms 1 (by decide) none
  exact ⟨fault, hfault⟩

end CompiledPattern

end SmallLisp
