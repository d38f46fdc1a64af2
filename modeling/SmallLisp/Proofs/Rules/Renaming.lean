import SmallLisp.Proofs.Relabelling.Rules
import SmallLisp.Proofs.Value.Plain
import Mathlib.Logic.Function.Basic

/-!
# Renamed rules

Names are the keys of the tables that compilation, matching and instantiation pass along. If a
renaming keeps different names apart, then all three commute with it. `Value.rename` changes the
symbols of a value, and makes its lists new ones, since no rule depends on which lists are which.
There is one lemma beside each definition:

* `Pattern.compileSequence_rename` — a renamed list compiles to the renamed pattern, if the literals
  and the ellipsis keep their names;
* `Pattern.matchForms_rename` — a renamed pattern matches the same forms, and binds the new names to
  the trees of the old ones;
* `Template.instantiate_rename` — a renamed template has the same copies under renamed bindings, if
  no symbol of it was renamed that is bound to nothing.

Without a new name this is about the lists alone (`Transformer.compileClause_plain`,
`Template.instantiate_plain`).
-/

namespace SmallLisp

variable {α : Type} {f : String → String}

/-! ### Tables -/

namespace Table

/-- The table with its names renamed. -/
def rename (f : String → String) (t : Table α) : Table α :=
  ⟨t.entries.map (Prod.map f id)⟩

theorem rename_id (t : Table α) : t.rename id = t :=
  congrArg Table.mk (List.map_id t.entries)

theorem names_rename (t : Table α) : (t.rename f).names = t.names.map f := by
  rw [names, names, rename, List.map_map, List.map_map]
  rfl

theorem findEntry_rename (hf : f.Injective) (name : String) (ps : List (String × α)) :
    findEntry (f name) (ps.map (Prod.map f id)) = findEntry name ps := by
  induction ps with
  | nil => rfl
  | cons p rest ih =>
    rw [List.map_cons, findEntry, findEntry, ih]
    exact if_congr hf.eq_iff rfl rfl

theorem get?_rename (hf : f.Injective) (t : Table α) (name : String) :
    (t.rename f).get? (f name) = t.get? name :=
  findEntry_rename hf name t.entries

theorem contains_rename (hf : f.Injective) (t : Table α) (name : String) :
    (t.rename f).contains (f name) = t.contains name := by
  rw [Bool.eq_iff_iff, contains_iff_mem_names, contains_iff_mem_names, names_rename,
    List.mem_map_of_injective hf]

theorem setEntry_rename (hf : f.Injective) (name : String) (entry : α) (ps : List (String × α)) :
    setEntry (f name) entry (ps.map (Prod.map f id))
      = (setEntry name entry ps).map (Prod.map f id) := by
  induction ps with
  | nil => rfl
  | cons p rest ih =>
    rw [List.map_cons, setEntry, setEntry, ih, apply_ite (List.map (Prod.map f id))]
    exact if_congr hf.eq_iff rfl rfl

theorem rename_set (hf : f.Injective) (t : Table α) (name : String) (entry : α) :
    (t.rename f).set (f name) entry = (t.set name entry).rename f :=
  congrArg Table.mk (setEntry_rename hf name entry t.entries)

theorem rename_setAll (hf : f.Injective) (t : Table α) (pairs : List (String × α)) :
    (t.rename f).setAll (pairs.map (Prod.map f id)) = (t.setAll pairs).rename f := by
  induction pairs generalizing t with
  | nil => rfl
  | cons p rest ih =>
    show ((t.rename f).set (f p.1) p.2).setAll _ = ((t.set p.1 p.2).setAll rest).rename f
    rw [rename_set hf, ih]

theorem rename_ofPairs (hf : f.Injective) (pairs : List (String × α)) :
    ofPairs (pairs.map (Prod.map f id)) = (ofPairs pairs).rename f :=
  rename_setAll hf empty pairs

end Table

/-- The trees of a renamed variable are gathered from the renamed bindings. -/
theorem Bindings.gather_rename (hf : f.Injective) (names : List String)
    (repetitions : List Bindings) :
    gather (names.map f) (repetitions.map (Table.rename f))
      = Table.rename f (gather names repetitions) := by
  rw [gather, gather, ← Table.rename_ofPairs hf, List.map_map, List.map_map]
  refine congrArg Table.ofPairs (List.map_congr_left fun name _ => ?_)
  rw [Function.comp_apply, Function.comp_apply, List.map_map, Prod.map]
  refine congrArg (fun trees => (f name, Tree.repeated trees)) (List.map_congr_left fun b _ => ?_)
  rw [Function.comp_apply, Table.get?_rename hf]

/-! ### Values -/

namespace Value

mutual

/-- The value with its symbols renamed, and with new lists in place of its lists. -/
def rename (f : String → String) : Value → Value
  | symbol name => symbol (f name)
  | list elements _ => list (renameAll f elements) none
  | v => v

/-- The values with their symbols renamed. -/
def renameAll (f : String → String) : List Value → List Value
  | [] => []
  | v :: vs => v.rename f :: renameAll f vs

end

theorem renameAll_eq_map (vs : List Value) : renameAll f vs = vs.map (rename f) := by
  induction vs with
  | nil => rfl
  | cons v vs ih => rw [renameAll, List.map_cons, ih]

mutual

/-- Without new names only the lists change. -/
theorem rename_id (v : Value) : v.rename id = v.plain := by
  match v with
  | list elements _ => rw [rename, plain, renameAll_id]
  | symbol _ | number _ _ | string _ | boolean _ | primitive _ _ | compound _ _ _ _ _
  | transformer _ _ _ _ _ => rfl

theorem renameAll_id (vs : List Value) : renameAll id vs = plainAll vs := by
  match vs with
  | [] => rfl
  | v :: vs => rw [renameAll, plainAll, rename_id, renameAll_id]

end

end Value

/-- Different names stay different, and the literals and the ellipsis keep their names. -/
structure RenamesVariables (literals : List String) (f : String → String) : Prop where
  injective : f.Injective
  literal : ∀ name ∈ literals, f name = name
  ellipsis : f ellipsis = ellipsis

theorem renamesVariables_id (literals : List String) : RenamesVariables literals id where
  injective := Function.injective_id
  literal _ _ := rfl
  ellipsis := rfl

theorem RenamesVariables.contains {literals : List String} (h : RenamesVariables literals f)
    (name : String) : literals.contains (f name) = literals.contains name := by
  rw [Bool.eq_iff_iff, List.contains_iff_mem, List.contains_iff_mem]
  constructor
  · intro hmem
    exact h.injective (h.literal (f name) hmem) ▸ hmem
  · intro hmem
    exact (h.literal name hmem).symm ▸ hmem

theorem Value.isEllipsis_rename (hf : f.Injective) (hdots : f ellipsis = ellipsis) (v : Value) :
    (v.rename f).isEllipsis = v.isEllipsis := by
  cases v with
  | symbol name =>
    rw [rename, isEllipsis_symbol, isEllipsis_symbol, Bool.eq_iff_iff, beq_iff_eq, beq_iff_eq]
    exact ⟨fun h => hf (h.trans hdots.symm), fun h => h ▸ hdots⟩
  | _ => rfl

/-! ### Patterns -/

namespace Pattern

/-- The pattern with its variables renamed. -/
def rename (f : String → String) : Pattern → Pattern
  | .empty => .empty
  | .variable name rest => .variable (f name) (rest.rename f)
  | .literal name rest => .literal name (rest.rename f)
  | .sublist head rest => .sublist (head.rename f) (rest.rename f)
  | .repetition repeated names => .repetition (repeated.rename f) (names.map f)

theorem rename_id (p : Pattern) : p.rename id = p := by
  induction p with
  | empty => rfl
  | «variable» name rest ih => rw [rename, ih, id]
  | literal name rest ih => rw [rename, ih]
  | sublist head rest ihHead ihRest => rw [rename, ihHead, ihRest]
  | repetition repeated names ih => rw [rename, ih, List.map_id]

end Pattern

/-- The compiled pattern with its variables renamed. -/
def CompiledPattern.rename (f : String → String) (c : CompiledPattern) : CompiledPattern where
  root := c.root.rename f
  depths := c.depths.rename f

theorem CompiledPattern.rename_id (c : CompiledPattern) : c.rename id = c := by
  rw [rename, Pattern.rename_id, Table.rename_id]

namespace Pattern

mutual

/-- **A renamed list compiles to the renamed pattern**, with renamed tables. -/
theorem compileSequence_rename {literals : List String} (hf : RenamesVariables literals f)
    (elements : List Value) (depth : Nat) (depths : Table Nat) :
    Corresponds SyntaxFault.Alike (Prod.map (rename f) (Table.rename f))
      (compileSequence literals elements depth depths)
      (compileSequence literals (Value.renameAll f elements) depth (depths.rename f)) := by
  match elements with
  | [] => exact .ok _
  | element :: rest =>
    have hdots := Value.isEllipsis_rename hf.injective hf.ellipsis
    -- an ellipsis is one before and after, so the elements go the same way
    have hnext : ((Value.renameAll f rest).head?.any Value.isEllipsis)
        = rest.head?.any Value.isEllipsis := by
      cases rest with
      | nil => rfl
      | cons v _ => exact hdots v
    have hlength : (Value.renameAll f rest).length = rest.length := by
      rw [Value.renameAll_eq_map, List.length_map]
    rw [Value.renameAll, compileSequence, compileSequence, hdots, hnext, hlength]
    by_cases hfirst : element.isEllipsis = true
    · rw [if_pos hfirst, if_pos hfirst]
      exact .error trivial
    rw [if_neg hfirst, if_neg hfirst]
    by_cases hrepeated : rest.head?.any Value.isEllipsis = true
    · rw [if_pos hrepeated, if_pos hrepeated]
      by_cases hlast : rest.length ≠ 1
      · rw [if_pos hlast, if_pos hlast]
        exact .error trivial
      · rw [if_neg hlast, if_neg hlast]
        have hrepetition := compileElement_rename hf element .empty (depth + 1) depths
        refine hrepetition.elim (fun ⟨repeated, found⟩ => ?_) fun _ => .error trivial
        -- the names that the ellipsis lists are a difference of tables, and so is their renaming
        have hnew : (found.rename f).names.filter (fun name => !(depths.rename f).contains name)
            = (found.names.filter fun name => !depths.contains name).map f := by
          rw [Table.names_rename, List.filter_map]
          refine congrArg (List.map f) (List.filter_congr fun name _ => ?_)
          rw [Function.comp_apply, Table.contains_rename hf.injective]
        dsimp only [Prod.map]
        rw [hnew]
        exact .ok (Pattern.repetition repeated _, found)
    · rw [if_neg hrepeated, if_neg hrepeated]
      have hafter := compileSequence_rename hf rest depth depths
      refine hafter.elim (fun ⟨after, found⟩ => ?_) fun _ => .error trivial
      exact compileElement_rename hf element after depth found

theorem compileElement_rename {literals : List String} (hf : RenamesVariables literals f)
    (element : Value) (rest : Pattern) (depth : Nat) (depths : Table Nat) :
    Corresponds SyntaxFault.Alike (Prod.map (rename f) (Table.rename f))
      (compileElement literals element rest depth depths)
      (compileElement literals (element.rename f) (rest.rename f) depth (depths.rename f)) := by
  match element with
  | .symbol name =>
    rw [Value.rename, compileElement, compileElement, hf.contains,
      Table.contains_rename hf.injective]
    -- a literal keeps its name, and no variable is given the name of one
    by_cases hliteral : literals.contains name = true
    · rw [if_pos hliteral, if_pos hliteral, hf.literal name (List.contains_iff_mem.1 hliteral)]
      exact .ok _
    rw [if_neg hliteral, if_neg hliteral]
    -- a variable that occurs twice does so under its new name as well
    by_cases hold : depths.contains name = true
    · rw [if_pos hold, if_pos hold]
      exact .error trivial
    · rw [if_neg hold, if_neg hold, Table.rename_set hf.injective]
      exact .ok _
  | .list elements _ =>
    rw [Value.rename, compileElement, compileElement]
    have hhead := compileSequence_rename hf elements depth depths
    refine hhead.elim (fun a => ?_) fun _ => .error trivial
    exact .ok _
  | .number _ _ | .string _ | .boolean _ | .primitive _ _ | .compound _ _ _ _ _
  | .transformer _ _ _ _ _ => exact .error trivial

end

theorem compile_rename {literals : List String} (hf : RenamesVariables literals f)
    (pattern : Value) :
    Corresponds SyntaxFault.Alike
      (CompiledPattern.rename f)
      (compile pattern literals) (compile (pattern.rename f) literals) := by
  cases pattern with
  | list elements self => exact (compileSequence_rename hf elements 0 ∅).map fun _ => rfl
  | symbol name => exact .error trivial
  | _ => exact .error trivial

/-- **A renamed pattern matches the same forms**, and binds the new names to what the old ones are
bound to. -/
theorem matchForms_rename (hf : f.Injective) (sameBinding : String → Bool) (p : Pattern)
    (forms : List Value) (bound : Bindings) :
    (p.rename f).matchForms sameBinding forms (bound.rename f)
      = (p.matchForms sameBinding forms bound).map (Table.rename f) := by
  induction p generalizing forms bound with
  | empty => cases forms <;> rfl
  | «variable» name rest ih =>
    cases forms with
    | nil => rfl
    | cons form forms => rw [rename, matchForms, matchForms, Table.rename_set hf, ih]
  | literal name rest ih =>
    cases forms with
    | nil => rfl
    | cons form forms =>
      rw [rename, matchForms, matchForms, ih]
      split <;> rfl
  | sublist head rest ihHead ihRest =>
    cases forms with
    | nil => rfl
    | cons form forms =>
      cases form with
      | list elements self =>
        -- a list is matched on its own, from no bindings
        have hhead := ihHead elements ∅
        have hempty : Table.rename f (∅ : Bindings) = ∅ := rfl
        rw [hempty] at hhead
        rw [rename, matchForms, matchForms, hhead]
        cases head.matchForms sameBinding elements ∅ with
        | none => rfl
        | some inner =>
          have hmerged := Table.rename_setAll hf bound inner.entries
          exact (congrArg ((rest.rename f).matchForms sameBinding forms) hmerged).trans
            (ihRest forms _)
      | _ => rfl
  | repetition repeated names ih =>
    -- every repetition is matched from no bindings, so that none depends on those before it
    have hforms : (forms.map id).mapM
          (fun form => (repeated.rename f).matchForms sameBinding [form] ∅)
        = (forms.mapM fun form => repeated.matchForms sameBinding [form] ∅).map
            (List.map (Table.rename f)) :=
      mapM_map_eq_map fun form => ih [form] ∅
    rw [List.map_id] at hforms
    rw [rename, matchForms, matchForms, hforms]
    cases forms.mapM fun form => repeated.matchForms sameBinding [form] ∅ with
    | none => rfl
    | some repetitions =>
      have hmerged := Table.rename_setAll hf bound (Bindings.gather names repetitions).entries
      exact (congrArg (fun b => some (Table.setAll (bound.rename f) b.entries))
        (Bindings.gather_rename hf names repetitions)).trans (congrArg some hmerged)

end Pattern

/-! ### Templates -/

namespace Template

mutual

theorem symbolsFrom_rename (hf : f.Injective) (seen : List String) (v : Value) :
    symbolsFrom (seen.map f) (v.rename f) = (symbolsFrom seen v).map f := by
  match v with
  | .symbol name =>
    -- the renaming is injective, so a name is seen iff its new name is
    have hseen : (seen.map f).contains (f name) = seen.contains name := by
      rw [Bool.eq_iff_iff, List.contains_iff_mem, List.contains_iff_mem,
        List.mem_map_of_injective hf]
    rw [Value.rename, symbolsFrom, symbolsFrom, hseen, apply_ite (List.map f), List.map_append,
      List.map_singleton]
  | .list elements _ =>
    rw [Value.rename, symbolsFrom, symbolsFrom]
    exact symbolsFromAll_rename hf seen elements
  | .number _ _ | .string _ | .boolean _ | .primitive _ _ | .compound _ _ _ _ _
  | .transformer _ _ _ _ _ => rfl

theorem symbolsFromAll_rename (hf : f.Injective) (seen : List String) (vs : List Value) :
    symbolsFromAll (seen.map f) (Value.renameAll f vs) = (symbolsFromAll seen vs).map f := by
  match vs with
  | [] => rfl
  | v :: vs =>
    rw [Value.renameAll, symbolsFromAll, symbolsFromAll, symbolsFrom_rename hf,
      symbolsFromAll_rename hf]

end

mutual

/-- Only what becomes of the symbols of a value matters. -/
theorem rename_congr {g : String → String} (v : Value)
    (h : ∀ name ∈ symbolsFrom [] v, f name = g name) : v.rename f = v.rename g := by
  match v with
  | .symbol name =>
    exact congrArg Value.symbol (h name ((mem_symbolsFrom_symbol name name).2 rfl))
  | .list elements _ =>
    rw [Value.rename, Value.rename,
      renameAll_congr elements fun name hname => h name ((mem_symbolsFrom_list _ _ _).2 hname)]
  | .number _ _ | .string _ | .boolean _ | .primitive _ _ | .compound _ _ _ _ _
  | .transformer _ _ _ _ _ => rfl

theorem renameAll_congr {g : String → String} (vs : List Value)
    (h : ∀ name ∈ symbolsFromAll [] vs, f name = g name) :
    Value.renameAll f vs = Value.renameAll g vs := by
  match vs with
  | [] => rfl
  | v :: vs =>
    rw [Value.renameAll, Value.renameAll,
      rename_congr v fun name hname => h name ((mem_symbolsFromAll_cons _ _ _).2 (.inl hname)),
      renameAll_congr vs fun name hname => h name ((mem_symbolsFromAll_cons _ _ _).2 (.inr hname))]

end

theorem leadingEllipses_rename (hf : f.Injective) (hdots : f ellipsis = ellipsis)
    (elements : List Value) :
    leadingEllipses (Value.renameAll f elements) = leadingEllipses elements := by
  have hellipsis : Value.isEllipsis ∘ Value.rename f = Value.isEllipsis :=
    funext (Value.isEllipsis_rename hf hdots)
  rw [leadingEllipses, Value.renameAll_eq_map, List.takeWhile_map, hellipsis, List.length_map]
  rfl

theorem repeatedAmong_rename (hf : f.Injective) (names : List String) (b : Bindings) :
    repeatedAmong (names.map f) (Table.rename f b)
      = (repeatedAmong names b).map (Prod.map f (List.map id)) := by
  rw [repeatedAmong, repeatedAmong, List.map_filterMap, List.filterMap_map]
  refine List.filterMap_congr fun name _ => ?_
  rw [Function.comp_apply, Table.get?_rename hf]
  cases b.get? name with
  | none => rfl
  | some tree =>
    cases tree with
    | form v => rfl
    | repeated trees => exact congrArg (fun same => some (f name, same)) (List.map_id trees).symm

/-- A renaming leaves the trees as they are: each goes under the new name into the renamed row. -/
theorem repetitions_rename (hf : f.Injective) (names : List String) (b : Bindings) :
    Corresponds SyntaxFault.Alike (List.map (Table.rename f)) (repetitions names b)
      (repetitions (names.map f) (Table.rename f b)) :=
  repetitions_map (fun row name tree => Table.rename_set hf row name tree)
    (repeatedAmong_rename hf names b)

/-- Whatever is bound around an ellipsis is bound in each repetition. -/
theorem get?_rows {sequences : List (String × List Tree)} {count : Nat} {b r : Bindings}
    (hr : r ∈ rows sequences count b) {name : String} (h : r.get? name = none) :
    b.get? name = none := by
  induction sequences generalizing r with
  | nil =>
    rw [rows, List.foldr_nil] at hr
    rwa [← List.eq_of_mem_replicate hr]
  | cons p others ih =>
    rw [rows, List.foldr_cons] at hr
    -- a row binds what the inner row binds and one name more
    obtain ⟨place, hplace⟩ := List.mem_iff_getElem?.1 hr
    obtain ⟨tree, row, -, hrow, rfl⟩ := List.getElem?_zipWith_eq_some.1 hplace
    rw [Table.get?_set] at h
    split at h
    · cases h
    · exact ih (List.mem_of_getElem? hrow) h

theorem get?_repetitions {names : List String} {b r : Bindings} {rows : List Bindings}
    (hrows : repetitions names b = .ok rows) (hr : r ∈ rows) {name : String}
    (h : r.get? name = none) : b.get? name = none := by
  rw [repetitions] at hrows
  split at hrows
  · cases hrows
  · dsimp only at hrows
    split at hrows
    · cases hrows
      exact get?_rows hr h
    · cases hrows

/-- Of the names, those that are bound to nothing are not renamed. -/
def Spares (f : String → String) (names : List String) (b : Bindings) : Prop :=
  ∀ name ∈ names, b.get? name = none → f name = name

theorem Spares.of_repetitions {names others : List String} {b r : Bindings} {rows : List Bindings}
    (h : Spares f names b) (hrows : repetitions others b = .ok rows) (hr : r ∈ rows) :
    Spares f names r :=
  fun name hname hnone => h name hname (get?_repetitions hrows hr hnone)

theorem copies_rename (hf : f.Injective) {build build' : Bindings → Except SyntaxFault Value}
    {names : List String}
    (h : ∀ r, Spares f names r →
      Corresponds SyntaxFault.Alike id (build r) (build' (Table.rename f r)))
    (more : Nat) {b : Bindings} (hb : Spares f names b) :
    Corresponds SyntaxFault.Alike id (copies build names more b)
      (copies build' (names.map f) more (Table.rename f b)) := by
  induction more generalizing b with
  | zero =>
    rw [← List.map_id_fun]
    exact (repetitions_rename hf names b).bind_of_ok fun rows hrows =>
      .mapM rows fun r hr => h r (hb.of_repetitions hrows hr)
  | succ more ih =>
    -- the rows spare what the bindings around them spare
    have hlevels := (repetitions_rename hf names b).bind_of_ok fun rows hrows =>
      .mapM rows fun r hr => ih (hb.of_repetitions hrows hr)
    exact hlevels.map fun lists => congrArg List.flatten (List.map_id lists)

mutual

/-- **A renamed template has the same copies** under renamed bindings. -/
theorem instantiate_rename (hf : f.Injective) (hdots : f ellipsis = ellipsis) (template : Value)
    {b : Bindings} (hb : Spares f (symbolsFrom [] template) b) :
    Corresponds SyntaxFault.Alike id (instantiate template b)
      (instantiate (template.rename f) (Table.rename f b)) := by
  match template with
  | .symbol name =>
    have hname := hb name ((mem_symbolsFrom_symbol name name).2 rfl)
    rw [Value.rename, instantiate, instantiate, Table.get?_rename hf]
    match hbound : b.get? name with
    | none =>
      -- the symbol stands for itself, so it must be the same symbol
      dsimp only
      rw [hname hbound]
      exact .ok _
    | some (.form value) => exact .ok value
    | some (.repeated _) => exact .error trivial
  | .list elements _ =>
    rw [Value.rename, instantiate, instantiate]
    exact (instantiateAll_rename hf hdots false elements
      fun name hname => hb name ((mem_symbolsFrom_list _ _ _).2 hname)).map fun _ => rfl
  | .number x self => exact .ok (Value.number x self)
  | .string text => exact .ok (Value.string text)
  | .boolean value => exact .ok (Value.boolean value)
  | .primitive action self => exact .ok (Value.primitive action self)
  | .compound name parameters body env self =>
    exact .ok (Value.compound name parameters body env self)
  | .transformer name literals clauses env self =>
    exact .ok (Value.transformer name literals clauses env self)

theorem instantiateAll_rename (hf : f.Injective) (hdots : f ellipsis = ellipsis) (after : Bool)
    (elements : List Value) {b : Bindings} (hb : Spares f (symbolsFromAll [] elements) b) :
    Corresponds SyntaxFault.Alike id (instantiateAll after elements b)
      (instantiateAll after (Value.renameAll f elements) (Table.rename f b)) := by
  match elements with
  | [] => exact .ok []
  | element :: rest =>
    -- what the bindings spare for the whole list they spare for each part of it
    have hhere : Spares f (symbolsFrom [] element) b :=
      fun name hname => hb name ((mem_symbolsFromAll_cons _ _ _).2 (.inl hname))
    have hrest := instantiateAll_rename hf hdots true rest
      fun name hname => hb name ((mem_symbolsFromAll_cons _ _ _).2 (.inr hname))
    have hsymbols : symbolsFrom [] (element.rename f) = (symbolsFrom [] element).map f :=
      symbolsFrom_rename hf [] element
    have hcopies : ∀ count, Corresponds SyntaxFault.Alike id (elementCopies element count b)
        (elementCopies (element.rename f) count (Table.rename f b)) := by
      intro count
      cases count with
      | zero => exact (instantiate_rename hf hdots element hhere).map fun _ => rfl
      | succ more =>
        -- under an ellipsis a row binds more names, so it spares what the bindings around it spare
        rw [elementCopies, elementCopies, hsymbols]
        exact copies_rename hf (fun _ hr => instantiate_rename hf hdots element hr) more hhere
    rw [Value.renameAll, instantiateAll_cons, instantiateAll_cons,
      Value.isEllipsis_rename hf hdots]
    by_cases hskip : (after && element.isEllipsis) = true
    · rw [if_pos hskip, if_pos hskip]
      exact hrest
    · rw [if_neg hskip, if_neg hskip, leadingEllipses_rename hf hdots]
      exact (hcopies _).bind fun here => hrest.map fun _ => rfl

end

/-- Which lists are which in a template makes no difference to its copies. -/
theorem instantiate_plain (template : Value) (b : Bindings) :
    Corresponds SyntaxFault.Alike id (instantiate template b) (instantiate template.plain b) := by
  have hsame := instantiate_rename Function.injective_id rfl template (b := b) fun _ _ _ => rfl
  rwa [Value.rename_id, Table.rename_id] at hsame

end Template

/-! ### Clauses -/

/-- A renamed pattern matches the same forms. -/
theorem CompiledPattern.matchForm?_rename (hf : f.Injective) (c : CompiledPattern)
    (sameBinding : String → Bool) (form : Value) :
    (c.rename f).matchForm? sameBinding form
      = (c.matchForm? sameBinding form).map (Table.rename f) := by
  cases form with
  | list elements self => exact Pattern.matchForms_rename hf sameBinding c.root elements ∅
  | _ => rfl

namespace Transformer

/-- **A renamed clause compiles to the renamed pattern**, whatever stands in the place of the
keyword. -/
theorem compileClause_rename {literals : List String} (hf : RenamesVariables literals f)
    (keyword keyword' : Value) (operands : List Value) (self self' : Option Identity) :
    Corresponds SyntaxFault.Alike (CompiledPattern.rename f)
      (compileClause literals (.list (keyword :: operands) self))
      (compileClause literals (.list (keyword' :: operands.map (Value.rename f)) self')) := by
  rw [← Value.renameAll_eq_map]
  exact Pattern.compile_rename hf (.ofList operands)

/-- Which lists are which in a pattern makes no difference to what it compiles to. -/
theorem compileClause_plain (literals : List String) (pattern : Value) :
    Corresponds SyntaxFault.Alike id (compileClause literals pattern)
      (compileClause literals pattern.plain) := by
  match pattern with
  | .list (keyword :: operands) self =>
    have hsame := compileClause_rename (renamesVariables_id literals) keyword keyword.plain operands
      self none
    have hrename : CompiledPattern.rename id = id := funext CompiledPattern.rename_id
    have hplain : Value.rename id = Value.plain := funext Value.rename_id
    rwa [hrename, hplain, ← List.map_cons, ← Value.plain_list] at hsame
  | .list [] _ | .number _ _ | .string _ | .boolean _ | .symbol _ | .primitive _ _
  | .compound _ _ _ _ _ | .transformer _ _ _ _ _ => exact .error trivial

end Transformer

end SmallLisp
