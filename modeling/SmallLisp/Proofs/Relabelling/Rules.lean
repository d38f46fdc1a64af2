import SmallLisp.Derived
import SmallLisp.Rules.Transformer
import SmallLisp.Proofs.Relabelling.Value
import SmallLisp.Proofs.Rules.Copy

/-!
# Relabelled forms

What is made of forms commutes with a relabelling: derived forms stand for the relabelled forms,
patterns match what they matched and bind the relabelled forms, and a transformer expands a
relabelled form to the relabelled expansion. Where the one side fails the other does as well. The
texts in the two faults can differ, since a fault quotes values by their text; `Corresponds` says
what is left.
-/

namespace SmallLisp

/-- Both computations end in a value, and `f` takes the one to the other, or both fail, with faults
that are related. -/
inductive Corresponds {ε α β : Type} (E : ε → ε → Prop) (f : α → β) :
    Except ε α → Except ε β → Prop where
  | ok (a : α) : Corresponds E f (.ok a) (.ok (f a))
  | error {fault fault' : ε} (h : E fault fault') : Corresponds E f (.error fault) (.error fault')

namespace Corresponds

variable {ε α β γ δ : Type} {E : ε → ε → Prop} {f : α → β} {g : γ → δ} {x : Except ε α}
  {y : Except ε β}

/-- What holds of two values that correspond, and of two faults, holds of both computations. -/
@[elab_as_elim]
theorem elim {motive : Except ε α → Except ε β → Prop} (h : Corresponds E f x y)
    (ok : ∀ a, motive (.ok a) (.ok (f a)))
    (error : ∀ {fault fault'}, E fault fault' → motive (.error fault) (.error fault')) :
    motive x y := by
  cases h with
  | ok a => exact ok a
  | error h => exact error h

/-- Of two computations that correspond as they are, one ends in a value if the other one does. -/
theorem eq_ok_iff {x y : Except ε α} (h : Corresponds E id x y) {a : α} :
    x = .ok a ↔ y = .ok a := by
  cases h with
  | ok a => rfl
  | error h => exact ⟨nofun, nofun⟩

/-- The answer of the second one is the image of that of the first. -/
theorem eq_ok (h : Corresponds E f x y) {a : α} (hx : x = .ok a) : y = .ok (f a) := by
  cases h with
  | ok a' =>
    cases hx
    rfl
  | error => cases hx

theorem map (h : Corresponds E f x y) {k : α → γ} {k' : β → δ} (hk : ∀ a, k' (f a) = g (k a)) :
    Corresponds E g (x.map k) (y.map k') := by
  cases h with
  | ok a =>
    show Corresponds E g (.ok (k a)) (.ok (k' (f a)))
    rw [hk]
    exact .ok (k a)
  | error h => exact .error h

theorem bind_of_ok (h : Corresponds E f x y) {k : α → Except ε γ} {k' : β → Except ε δ}
    (hk : ∀ a, x = .ok a → Corresponds E g (k a) (k' (f a))) :
    Corresponds E g (x >>= k) (y >>= k') := by
  cases h with
  | ok a => exact hk a rfl
  | error h => exact .error h

theorem bind (h : Corresponds E f x y) {k : α → Except ε γ} {k' : β → Except ε δ}
    (hk : ∀ a, Corresponds E g (k a) (k' (f a))) : Corresponds E g (x >>= k) (y >>= k') :=
  h.bind_of_ok fun a _ => hk a

theorem mapM {k : α → Except ε γ} {k' : β → Except ε δ} (as : List α)
    (h : ∀ a ∈ as, Corresponds E g (k a) (k' (f a))) :
    Corresponds E (List.map g) (as.mapM k) ((as.map f).mapM k') := by
  induction as with
  | nil => exact .ok []
  | cons a as ih =>
    rw [List.mapM_cons, List.map_cons, List.mapM_cons]
    refine (h a List.mem_cons_self).bind fun c => ?_
    refine (ih fun b hb => h b (List.mem_cons_of_mem a hb)).bind fun cs => ?_
    exact .ok (c :: cs)

end Corresponds

/-- Any two faults of shape are alike: both have the one code of a malformed form. -/
abbrev SyntaxFault.Alike (_ _ : SyntaxFault) : Prop := True

/-- Two computations that correspond to a third as they are correspond to each other. -/
theorem Corresponds.join {α : Type} {x y z : Except SyntaxFault α}
    (hx : Corresponds SyntaxFault.Alike id x z) (hy : Corresponds SyntaxFault.Alike id y z) :
    Corresponds SyntaxFault.Alike id x y := by
  cases hx with
  | ok a =>
    rw [hy.eq_ok_iff.2 rfl]
    exact .ok a
  | error =>
    cases hy with
    | error => exact .error trivial

variable {φ : Relabelling}

/-! ### Derived forms -/

namespace Derived

open Value

theorem relabel_sequence (expressions : List Value) :
    (sequence expressions).relabel φ = sequence (expressions.map (relabel φ)) := by
  match expressions with
  | [] => rfl
  | [_] => rfl
  | _ :: _ :: _ => exact relabel_ofList _

theorem nestClauses_relabel (clauses : List Value) :
    Corresponds SyntaxFault.Alike (relabel φ) (nestClauses clauses)
      (nestClauses (clauses.map (relabel φ))) := by
  induction clauses with
  | nil => exact .ok (boolean false)
  | cons clause rest ih =>
    match clause with
    | .list (test :: actions) _ =>
      rw [List.map_cons, relabel_list, List.map_cons, nestClauses, nestClauses,
        isSymbolNamed_relabel]
      -- on both sides the clause is an `else`, which has to be the last one, or it is none
      by_cases helse : test.isSymbolNamed "else" = true
      · rw [if_pos helse, if_pos helse, List.isEmpty_map]
        by_cases hlast : rest.isEmpty = true
        · rw [if_pos hlast, if_pos hlast, ← relabel_sequence]
          exact .ok _
        · rw [if_neg hlast, if_neg hlast]
          exact .error trivial
      · rw [if_neg helse, if_neg helse]
        refine ih.map fun otherwise => ?_
        rw [relabel_ofList, ← relabel_sequence]
        rfl
    | .list [] _ | .number _ _ | .string _ | .boolean _ | .symbol _ | .primitive _ _
    | .compound _ _ _ _ _ | .transformer _ _ _ _ _ => exact .error trivial

theorem splitBindings_relabel (bindings : List Value) :
    Corresponds SyntaxFault.Alike (Prod.map (List.map (relabel φ)) (List.map (relabel φ)))
      (splitBindings bindings) (splitBindings (bindings.map (relabel φ))) := by
  induction bindings with
  | nil => exact .ok ([], [])
  | cons binding rest ih =>
    match binding with
    -- the only shape that is accepted; every other one is refused, whatever is in it
    | .list [.symbol name, value] _ => exact ih.map fun _ => rfl
    | .list [.symbol name] _ | .list (.symbol name :: _ :: _ :: _) _ | .list [] _
    | .number _ _ | .string _ | .boolean _ | .symbol _ | .primitive _ _
    | .compound _ _ _ _ _ | .transformer _ _ _ _ _ => exact .error trivial
    | .list (.number _ _ :: _) _ | .list (.string _ :: _) _ | .list (.boolean _ :: _) _
    | .list (.list _ _ :: _) _ | .list (.primitive _ _ :: _) _ | .list (.compound _ _ _ _ _ :: _) _
    | .list (.transformer _ _ _ _ _ :: _) _ => exact .error trivial

theorem combination_relabel (form : List Value) :
    Corresponds SyntaxFault.Alike (relabel φ) (combination form)
      (combination (form.map (relabel φ))) := by
  match form with
  | _ :: .list bindings _ :: body =>
    rw [List.map_cons, List.map_cons, relabel_list, combination, combination, List.isEmpty_map]
    -- whether there is a body does not depend on what is in it
    by_cases hbody : body.isEmpty = true
    · rw [if_pos hbody, if_pos hbody]
      exact .error trivial
    · rw [if_neg hbody, if_neg hbody]
      refine (splitBindings_relabel bindings).map fun (names, values) => ?_
      simp
  | [] | [_] => exact .error trivial
  | _ :: .number _ _ :: _ | _ :: .string _ :: _ | _ :: .boolean _ :: _ | _ :: .symbol _ :: _
  | _ :: .primitive _ _ :: _ | _ :: .compound _ _ _ _ _ :: _
  | _ :: .transformer _ _ _ _ _ :: _ => exact .error trivial

/-- A relabelled derived form stands for the relabelled form. -/
theorem desugar_relabel (d : Derived) (form : List Value) :
    Corresponds SyntaxFault.Alike (relabel φ) (d.desugar form)
      (d.desugar (form.map (relabel φ))) := by
  cases d with
  | conditional =>
    rw [desugar, desugar, ← List.map_tail]
    exact nestClauses_relabel form.tail
  | binding => exact combination_relabel form

end Derived

/-! ### Patterns -/

@[simp] theorem Value.isEllipsis_relabel (v : Value) : (v.relabel φ).isEllipsis = v.isEllipsis :=
  Value.isSymbolNamed_relabel ellipsis v

namespace Pattern

open Value

mutual

/-- What a pattern compiles to says nothing about the objects in it. -/
theorem compileSequence_relabel (literals : List String) (elements : List Value) (depth : Nat)
    (depths : Table Nat) :
    Corresponds SyntaxFault.Alike id (compileSequence literals elements depth depths)
      (compileSequence literals (relabelAll φ elements) depth depths) := by
  match elements with
  | [] => exact .ok _
  | element :: rest =>
    -- what decides about an element is whether an ellipsis follows, and how much after it
    have hnext : ((relabelAll φ rest).head?.any isEllipsis) = rest.head?.any isEllipsis := by
      cases rest with
      | nil => rfl
      | cons v _ => exact isEllipsis_relabel v
    have hlength : (relabelAll φ rest).length = rest.length := by
      rw [relabelAll_eq_map, List.length_map]
    rw [relabelAll, compileSequence, compileSequence, isEllipsis_relabel, hnext, hlength]
    by_cases hfirst : element.isEllipsis = true
    · rw [if_pos hfirst, if_pos hfirst]
      exact .error trivial
    rw [if_neg hfirst, if_neg hfirst]
    by_cases hrepeated : rest.head?.any isEllipsis = true
    · rw [if_pos hrepeated, if_pos hrepeated]
      -- the repetition must be the last of the list
      by_cases hlast : rest.length ≠ 1
      · rw [if_pos hlast, if_pos hlast]
        exact .error trivial
      · rw [if_neg hlast, if_neg hlast]
        have hrepetition := compileElement_relabel literals element .empty (depth + 1) depths
        refine hrepetition.elim (fun a => ?_) fun _ => .error trivial
        exact .ok _
    · rw [if_neg hrepeated, if_neg hrepeated]
      have hafter := compileSequence_relabel literals rest depth depths
      refine hafter.elim (fun a => ?_) fun _ => .error trivial
      exact compileElement_relabel literals element a.1 depth a.2

theorem compileElement_relabel (literals : List String) (element : Value) (rest : Pattern)
    (depth : Nat) (depths : Table Nat) :
    Corresponds SyntaxFault.Alike id (compileElement literals element rest depth depths)
      (compileElement literals (element.relabel φ) rest depth depths) := by
  match element with
  -- a symbol is mapped to itself, so both sides compile the same symbol
  | .symbol name =>
    rw [relabel_symbol]
    cases compileElement literals (.symbol name) rest depth depths with
    | ok a => exact .ok a
    | error => exact .error trivial
  | .list elements _ =>
    rw [relabel, compileElement, compileElement]
    have hhead := compileSequence_relabel literals elements depth depths
    refine hhead.elim (fun a => ?_) fun _ => .error trivial
    exact .ok _
  | .number _ _ | .string _ | .boolean _ | .primitive _ _ | .compound _ _ _ _ _
  | .transformer _ _ _ _ _ => exact .error trivial

end

theorem compile_relabel (pattern : Value) (literals : List String) :
    Corresponds SyntaxFault.Alike id (compile pattern literals)
      (compile (pattern.relabel φ) literals) := by
  cases pattern with
  | list elements self => exact (compileSequence_relabel literals elements 0 ∅).map fun _ => rfl
  | _ => exact .error trivial

end Pattern

/-! ### Matching -/

namespace Tree

mutual

/-- The tree with its forms relabelled. -/
def relabel (φ : Relabelling) : Tree → Tree
  | form v => form (v.relabel φ)
  | repeated trees => repeated (relabelAll φ trees)

/-- Several trees with their forms relabelled. -/
def relabelAll (φ : Relabelling) : List Tree → List Tree
  | [] => []
  | tree :: trees => tree.relabel φ :: relabelAll φ trees

end

theorem relabelAll_eq_map (trees : List Tree) : relabelAll φ trees = trees.map (relabel φ) := by
  induction trees with
  | nil => rfl
  | cons tree trees ih => rw [relabelAll, List.map_cons, ih]

@[simp] theorem relabel_form (v : Value) : (form v).relabel φ = form (v.relabel φ) := rfl

@[simp] theorem relabel_repeated (trees : List Tree) :
    (repeated trees).relabel φ = repeated (trees.map (relabel φ)) := by
  rw [relabel, relabelAll_eq_map]

end Tree

/-- Bindings with the forms that are bound relabelled. -/
def Bindings.relabel (φ : Relabelling) (b : Bindings) : Bindings :=
  b.map (Tree.relabel φ)

namespace Bindings

@[simp] theorem get?_relabel (b : Bindings) (name : String) :
    Table.get? (b.relabel φ) name = (Table.get? b name).map (Tree.relabel φ) :=
  Table.get?_map _ b name

theorem relabel_set (b : Bindings) (name : String) (tree : Tree) :
    Bindings.relabel φ (Table.set b name tree) = Table.set (b.relabel φ) name (tree.relabel φ) :=
  (Table.map_set _ b name tree).symm

theorem relabel_setAll (b inner : Bindings) :
    Bindings.relabel φ (Table.setAll b inner.entries)
      = Table.setAll (b.relabel φ) (inner.relabel φ).entries :=
  (Table.map_setAll _ b inner.entries).symm

theorem gather_relabel (names : List String) (repetitions : List Bindings) :
    gather names (repetitions.map (relabel φ)) = (gather names repetitions).relabel φ := by
  -- name by name: the trees of one name in all repetitions
  have hentry : ∀ name, (repetitions.map (relabel φ)).map
        (fun b => (Table.get? b name).getD (.repeated []))
      = (repetitions.map fun b => (Table.get? b name).getD (.repeated [])).map
          (Tree.relabel φ) := by
    intro name
    rw [List.map_map, List.map_map]
    refine List.map_congr_left fun b _ => ?_
    rw [Function.comp_apply, Function.comp_apply, get?_relabel]
    cases Table.get? b name with
    | none => exact (Tree.relabel_repeated []).symm
    | some tree => rfl
  unfold gather relabel
  rw [← Table.map_ofPairs, List.map_map]
  refine congrArg Table.ofPairs (List.map_congr_left fun name _ => ?_)
  show (name, Tree.repeated _) = (name, Tree.relabel φ (.repeated _))
  rw [Tree.relabel_repeated, ← hentry]
  rfl

end Bindings

namespace Pattern

open Value

/-- **A pattern matches a relabelled form as it matches the form,** and binds its variables to the
relabelled forms. -/
theorem matchForms_relabel (sameBinding : String → Bool) (p : Pattern) (forms : List Value)
    (bound : Bindings) :
    p.matchForms sameBinding (forms.map (relabel φ)) (bound.relabel φ)
      = (p.matchForms sameBinding forms bound).map (Bindings.relabel φ) := by
  induction p generalizing forms bound with
  | empty => cases forms <;> rfl
  | «variable» name rest ih =>
    cases forms with
    | nil => rfl
    | cons form forms =>
      rw [List.map_cons, matchForms, matchForms, ← ih, Bindings.relabel_set]
      rfl
  | literal name rest ih =>
    cases forms with
    | nil => rfl
    | cons form forms =>
      rw [List.map_cons, matchForms, matchForms, isSymbolNamed_relabel, ih]
      split <;> rfl
  | sublist head rest ihHead ihRest =>
    cases forms with
    | nil => rfl
    | cons form forms =>
      cases form with
      | list elements self =>
        -- a list is matched on its own, from no bindings
        have hhead := ihHead elements ∅
        have hempty : Bindings.relabel φ ∅ = ∅ := rfl
        rw [hempty] at hhead
        rw [List.map_cons, relabel_list, matchForms, matchForms, hhead]
        cases head.matchForms sameBinding elements ∅ with
        | none => rfl
        | some inner =>
          show rest.matchForms _ _ (Table.setAll (bound.relabel φ) (inner.relabel φ).entries) = _
          rw [← Bindings.relabel_setAll, ihRest]
      | _ => rfl
  | repetition repeated names ih =>
    -- each form is matched by itself, so the repetitions correspond one by one
    have hforms : (forms.map (relabel φ)).mapM
          (fun form => repeated.matchForms sameBinding [form] ∅)
        = (forms.mapM fun form => repeated.matchForms sameBinding [form] ∅).map
            (List.map (Bindings.relabel φ)) :=
      mapM_map_eq_map fun form => ih [form] ∅
    rw [matchForms, matchForms, hforms]
    cases forms.mapM fun form => repeated.matchForms sameBinding [form] ∅ with
    | none => rfl
    | some repetitions =>
      show some (Table.setAll (bound.relabel φ)
        (Bindings.gather names (repetitions.map (Bindings.relabel φ))).entries) = _
      rw [Bindings.gather_relabel, ← Bindings.relabel_setAll]
      rfl

end Pattern

theorem CompiledPattern.matchForm?_relabel (p : CompiledPattern) (sameBinding : String → Bool)
    (form : Value) :
    p.matchForm? sameBinding (form.relabel φ)
      = (p.matchForm? sameBinding form).map (Bindings.relabel φ) := by
  cases form with
  | list elements self =>
    rw [Value.relabel_list]
    exact Pattern.matchForms_relabel sameBinding p.root elements ∅
  | _ => rfl

/-! ### Templates -/

namespace Template

open Value

mutual

@[simp] theorem symbolsFrom_relabel (seen : List String) (v : Value) :
    symbolsFrom seen (v.relabel φ) = symbolsFrom seen v := by
  match v with
  | .list elements _ =>
    rw [relabel, symbolsFrom, symbolsFrom]
    exact symbolsFromAll_relabelAll seen elements
  | .symbol _ | .number _ _ | .string _ | .boolean _ | .primitive _ _ | .compound _ _ _ _ _
  | .transformer _ _ _ _ _ => rfl

theorem symbolsFromAll_relabelAll (seen : List String) (vs : List Value) :
    symbolsFromAll seen (relabelAll φ vs) = symbolsFromAll seen vs := by
  match vs with
  | [] => rfl
  | v :: vs =>
    rw [relabelAll, symbolsFromAll, symbolsFromAll, symbolsFrom_relabel, symbolsFromAll_relabelAll]

end

theorem leadingEllipses_relabel (elements : List Value) :
    leadingEllipses (elements.map (relabel φ)) = leadingEllipses elements := by
  have hellipsis : isEllipsis ∘ relabel φ = isEllipsis := funext isEllipsis_relabel
  rw [leadingEllipses, List.takeWhile_map, hellipsis, List.length_map]
  rfl

section Rows

variable {rename : String → String} {tree : Tree → Tree} {row : Bindings → Bindings}

/-- The rows of mapped sequences are the mapped rows, if the map on rows sets what the map on
sequences gives it. -/
theorem rows_map (hset : ∀ (b : Bindings) (name : String) (t : Tree),
      Table.set (row b) (rename name) (tree t) = row (b.set name t))
    (sequences : List (String × List Tree)) (count : Nat) (b : Bindings) :
    rows (sequences.map (Prod.map rename (List.map tree))) count (row b)
      = (rows sequences count b).map row := by
  induction sequences with
  | nil => exact List.map_replicate.symm
  | cons p others ih =>
    rw [rows] at ih
    rw [rows, rows, List.map_cons, List.foldr_cons, List.foldr_cons, ih, List.map_zipWith,
      ← rows]
    show List.zipWith _ (p.2.map tree) ((rows others count b).map row) = _
    rw [List.zipWith_map]
    -- setting a tree and mapping the row can be exchanged
    have hexchange : (fun t r => Table.set (row r) (rename p.1) (tree t))
        = fun t r => row (Table.set r p.1 t) :=
      funext fun t => funext fun r => hset r p.1 t
    exact congrArg (List.zipWith · _ _) hexchange

/-- Mapped sequences are walked together if the sequences are. -/
theorem repetitions_map (hset : ∀ (b : Bindings) (name : String) (t : Tree),
      Table.set (row b) (rename name) (tree t) = row (b.set name t))
    {names names' : List String} {b : Bindings}
    (hamong : repeatedAmong names' (row b)
      = (repeatedAmong names b).map (Prod.map rename (List.map tree))) :
    Corresponds SyntaxFault.Alike (List.map row) (repetitions names b)
      (repetitions names' (row b)) := by
  rw [repetitions, repetitions, hamong]
  cases repeatedAmong names b with
  | nil => exact .error trivial
  | cons first others =>
    -- no sequence gets longer or shorter, so the same ones are of one length
    have hlengths : (others.map (Prod.map rename (List.map tree))).all
          (·.2.length == (Prod.map rename (List.map tree) first).2.length)
        = others.all (·.2.length == first.2.length) := by
      rw [List.all_map]
      refine congrArg others.all (funext fun p => ?_)
      show ((p.2.map tree).length == (first.2.map tree).length) = _
      rw [List.length_map, List.length_map]
    rw [List.map_cons]
    dsimp only
    rw [hlengths]
    by_cases hequal : others.all (·.2.length == first.2.length) = true
    · rw [if_pos hequal, if_pos hequal, ← List.map_cons, rows_map hset]
      show Corresponds _ _ (.ok _) (.ok ((rows _ (first.2.map tree).length b).map row))
      rw [List.length_map]
      exact .ok _
    · rw [if_neg hequal, if_neg hequal]
      exact .error trivial

end Rows

theorem repeatedAmong_relabel (names : List String) (b : Bindings) :
    repeatedAmong names (b.relabel φ)
      = (repeatedAmong names b).map (Prod.map id (List.map (Tree.relabel φ))) := by
  rw [repeatedAmong, repeatedAmong, List.map_filterMap]
  refine List.filterMap_congr fun name _ => ?_
  rw [Bindings.get?_relabel]
  cases Table.get? b name with
  | none => rfl
  | some tree =>
    -- the same trees are sequences before and after
    cases tree with
    | form v => rfl
    | repeated trees =>
      rw [Option.map_some, Tree.relabel_repeated]
      rfl

theorem repetitions_relabel (names : List String) (b : Bindings) :
    Corresponds SyntaxFault.Alike (List.map (Bindings.relabel φ)) (repetitions names b)
      (repetitions names (b.relabel φ)) :=
  repetitions_map (fun row name tree => (Bindings.relabel_set row name tree).symm)
    (repeatedAmong_relabel names b)

theorem copies_relabel {build build' : Bindings → Except SyntaxFault Value} (names : List String)
    (h : ∀ b, Corresponds SyntaxFault.Alike (relabel φ) (build b) (build' (b.relabel φ)))
    (more : Nat) (b : Bindings) :
    Corresponds SyntaxFault.Alike (List.map (relabel φ)) (copies build names more b)
      (copies build' names more (b.relabel φ)) := by
  induction more generalizing b with
  | zero => exact (repetitions_relabel names b).bind fun rows => .mapM rows fun row _ => h row
  | succ more ih =>
    -- the copies of one level are lists of copies, which are joined
    have hlevels := (repetitions_relabel (φ := φ) names b).bind fun rows =>
      .mapM rows fun row _ => ih row
    exact hlevels.map fun _ => List.map_flatten.symm

mutual

/-- **A relabelled template has the relabelled copies** under relabelled bindings. -/
theorem instantiate_relabel (template : Value) (b : Bindings) :
    Corresponds SyntaxFault.Alike (relabel φ) (instantiate template b)
      (instantiate (template.relabel φ) (b.relabel φ)) := by
  match template with
  -- what replaces a symbol comes from the bindings, which are mapped already
  | .symbol name =>
    rw [relabel_symbol, instantiate, instantiate, Bindings.get?_relabel]
    match Table.get? b name with
    | none => exact .ok (symbol name)
    | some (.form value) => exact .ok value
    | some (.repeated _) =>
      rw [Option.map_some, Tree.relabel_repeated]
      exact .error trivial
  | .list elements _ =>
    rw [relabel, instantiate, instantiate]
    exact (instantiateAll_relabelAll false elements b).map fun vs => (relabel_ofList vs).symm
  | .number x self => exact .ok (number x self)
  | .string text => exact .ok (string text)
  | .boolean value => exact .ok (boolean value)
  | .primitive action self => exact .ok (primitive action self)
  | .compound name parameters body env self => exact .ok (compound name parameters body env self)
  | .transformer name literals clauses env self =>
    exact .ok (transformer name literals clauses env self)

theorem instantiateAll_relabelAll (after : Bool) (elements : List Value) (b : Bindings) :
    Corresponds SyntaxFault.Alike (List.map (relabel φ)) (instantiateAll after elements b)
      (instantiateAll after (relabelAll φ elements) (b.relabel φ)) := by
  match elements with
  | [] => exact .ok []
  | element :: rest =>
    have hrest := instantiateAll_relabelAll true rest b
    -- an element has as many levels of copies as it has ellipses behind it
    have hcopies : ∀ count, Corresponds SyntaxFault.Alike (List.map (relabel φ))
        (elementCopies element count b)
          (elementCopies (element.relabel φ) count (b.relabel φ)) := by
      intro count
      cases count with
      | zero => exact (instantiate_relabel element b).map fun _ => rfl
      | succ more =>
        rw [elementCopies, elementCopies, symbolsFrom_relabel]
        exact copies_relabel _ (fun row => instantiate_relabel element row) more b
    rw [relabelAll, instantiateAll_cons, instantiateAll_cons, isEllipsis_relabel]
    -- these ellipses have been counted with the element before them
    by_cases hskip : (after && element.isEllipsis) = true
    · rw [if_pos hskip, if_pos hskip]
      exact hrest
    · rw [if_neg hskip, if_neg hskip, relabelAll_eq_map, leadingEllipses_relabel,
        ← relabelAll_eq_map]
      exact (hcopies _).bind fun here => hrest.map fun _ => List.map_append.symm

end

end Template

/-! ### Transformers -/

namespace Transformer

open Value

theorem compileClause_relabel (literals : List String) (pattern : Value) :
    Corresponds SyntaxFault.Alike id (compileClause literals pattern)
      (compileClause literals (pattern.relabel φ)) := by
  match pattern with
  | .list (_ :: operands) _ =>
    have hoperands := Pattern.compile_relabel (φ := φ) (.ofList operands) literals
    rw [relabel_ofList] at hoperands
    rw [relabel_list]
    exact hoperands
  | .list [] _ | .number _ _ | .string _ | .boolean _ | .symbol _ | .primitive _ _
  | .compound _ _ _ _ _ | .transformer _ _ _ _ _ => exact .error trivial

theorem literalNames_relabel (forms : List Value) :
    Corresponds SyntaxFault.Alike id (literalNames forms)
      (literalNames (forms.map (relabel φ))) := by
  induction forms with
  | nil => exact .ok []
  | cons form rest ih =>
    match form with
    | .symbol name => exact ih.map fun _ => rfl
    | .list _ _ | .number _ _ | .string _ | .boolean _ | .primitive _ _ | .compound _ _ _ _ _
    | .transformer _ _ _ _ _ => exact .error trivial

/-- A clause with its pattern and its template relabelled. -/
abbrev relabelClause (φ : Relabelling) (p : Value × Value) : Value × Value :=
  (p.1.relabel φ, p.2.relabel φ)

theorem clausesOf_relabel (literals : List String) (forms : List Value) :
    Corresponds SyntaxFault.Alike (List.map (relabelClause φ)) (clausesOf literals forms)
      (clausesOf literals (forms.map (relabel φ))) := by
  induction forms with
  | nil => exact .ok []
  | cons form rest ih =>
    match form with
    -- a clause has exactly two elements; what has more or less is refused on both sides
    | .list [pattern, template] _ =>
      rw [List.map_cons, relabel_list]
      show Corresponds _ _ (clausesOf _ _)
        (clausesOf _ (.list [pattern.relabel φ, template.relabel φ] _ :: _))
      rw [clausesOf, clausesOf]
      refine (compileClause_relabel literals pattern).elim (fun _ => ?_) fun _ => .error trivial
      exact ih.map fun _ => rfl
    | .list [] _ | .list [_] _ | .list (_ :: _ :: _ :: _) _ | .number _ _ | .string _ | .boolean _
    | .symbol _ | .primitive _ _ | .compound _ _ _ _ _ | .transformer _ _ _ _ _ =>
      exact .error trivial

/-- Relabelled rules make the relabelled transformer. -/
theorem make_relabel (name : String) (rules : Value) (env : Env) :
    Corresponds SyntaxFault.Alike (relabel φ) (make name rules env)
      (make name (rules.relabel φ) env) := by
  -- what are no rules at all is reported in the same way
  have hshape : ∀ v : Value, make name v env = .error (.rulesShape name) →
      make name (v.relabel φ) env = .error (.rulesShape name) →
      Corresponds SyntaxFault.Alike (relabel φ) (make name v env)
        (make name (v.relabel φ) env) := by
    intro v h h'
    rw [h, h']
    exact .error trivial
  match rules with
  | .list (.symbol keyword :: literalList :: clauseForms) _ =>
    -- the keyword is a symbol, which is mapped to itself
    by_cases hkeyword : keyword = "syntax-rules"
    · subst hkeyword
      cases literalList with
      | list literalForms self =>
        rw [relabel_list, List.map_cons, List.map_cons, relabel_symbol, relabel_list, make, make]
        refine (literalNames_relabel literalForms).elim (fun literals => ?_) fun _ => .error trivial
        refine (clausesOf_relabel literals clauseForms).map fun clauses => ?_
        rw [relabel_transformer]
        rfl
      | _ => exact .error trivial
    · refine hshape _ ?_ ?_
      · simp [make, hkeyword]
      · simp [make, hkeyword]
  | .list [] _ => exact hshape _ rfl rfl
  | .list [_] _ =>
    refine hshape _ ?_ ?_
    · simp [make]
    · simp [make]
  | .list (.number _ _ :: _ :: _) _ | .list (.string _ :: _ :: _) _ | .list (.boolean _ :: _ :: _) _
  | .list (.list _ _ :: _ :: _) _ | .list (.primitive _ _ :: _ :: _) _
  | .list (.compound _ _ _ _ _ :: _ :: _) _ | .list (.transformer _ _ _ _ _ :: _ :: _) _ =>
    exact hshape _ rfl rfl
  | .number _ _ | .string _ | .boolean _ | .symbol _ | .primitive _ _ | .compound _ _ _ _ _
  | .transformer _ _ _ _ _ => exact hshape _ rfl rfl

theorem firstInstance?_relabel (sameBinding : String → Bool) (literals : List String)
    (operands : Value) (clauses : List (Value × Value)) :
    Corresponds SyntaxFault.Alike (Option.map (relabel φ))
      (firstInstance? sameBinding literals operands clauses)
      (firstInstance? sameBinding literals (operands.relabel φ)
        (clauses.map (relabelClause φ))) := by
  induction clauses with
  | nil => exact .ok none
  | cons clause rest ih =>
    obtain ⟨pattern, template⟩ := clause
    rw [List.map_cons, firstInstance?, firstInstance?]
    refine (compileClause_relabel literals pattern).elim (fun compiled => ?_) fun _ =>
      .error trivial
    dsimp only [id]
    rw [CompiledPattern.matchForm?_relabel]
    -- the pattern matches on both sides or on neither, so the same clause is used
    cases compiled.matchForm? sameBinding operands with
    | none => exact ih
    | some b => exact (Template.instantiate_relabel template b).map fun _ => rfl

/-- **A relabelled transformer expands a relabelled form** to the relabelled expansion, provided
that the names mean the same. -/
theorem expand_relabel {store store' : Store} {definition use : Env}
    (hagree : store'.agree definition use = store.agree definition use) (name : String)
    (literals : List String) (clauses : List (Value × Value)) (form : List Value) :
    Corresponds SyntaxFault.Alike (relabel φ)
      (expand store name literals clauses definition form use)
      (expand store' name literals (clauses.map (relabelClause φ)) definition
        (form.map (relabel φ)) use) := by
  -- the operands are looked at as one list
  have hinstance := firstInstance?_relabel (φ := φ) (store.agree definition use) literals
    (.ofList form.tail) clauses
  rw [relabel_ofList, List.map_tail] at hinstance
  rw [expand, expand, hagree]
  refine hinstance.elim (fun expansion => ?_) fun _ => .error trivial
  cases expansion with
  | none => exact .error trivial
  | some v => exact .ok v

end Transformer

end SmallLisp
