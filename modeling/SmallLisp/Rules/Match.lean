import SmallLisp.Rules.Pattern

/-!
# Matching

A pattern either does not match a form, which is no fault, or binds each of its variables to a tree:
the form that the variable stands for, with one more level of repetition for every ellipsis above
it. `Bindings.flatten` forgets the repetitions and keeps the forms in order.
-/

namespace SmallLisp

/-- What a variable matched: one form, or one tree for each repetition. -/
inductive Tree where
  | form (value : Value)
  | repeated (trees : List Tree)
  deriving Inhabited

/-- The trees of the variables of a pattern. -/
abbrev Bindings := Table Tree

mutual

/-- The forms of a tree, from left to right. -/
def Tree.forms : Tree → List Value
  | .form value => [value]
  | .repeated trees => Tree.allForms trees

/-- The forms of several trees, from left to right. -/
def Tree.allForms : List Tree → List Value
  | [] => []
  | tree :: trees => tree.forms ++ Tree.allForms trees

end

/-- Every variable with all its forms. -/
def Bindings.flatten (b : Bindings) : Table (List Value) :=
  Table.ofPairs (b.entries.map fun p => (p.1, p.2.forms))

/-- Gathers the repetitions of an ellipsis: each variable is bound to the trees that it has in them,
in order. -/
def Bindings.gather (names : List String) (repetitions : List Bindings) : Bindings :=
  Table.ofPairs (names.map fun name =>
    (name, .repeated (repetitions.map fun b => (b.get? name).getD (.repeated []))))

namespace Pattern

/-- Matches a sequence of forms, adding to the bindings so far. A literal matches the symbol of its
name if `sameBinding` holds of the name: if it means the same where the pattern was written and
where the form stands. -/
def matchForms (sameBinding : String → Bool) : Pattern → List Value → Bindings → Option Bindings
  | .empty, [], bound => some bound
  | .empty, _ :: _, _ => none
  | .variable name rest, form :: forms, bound =>
    rest.matchForms sameBinding forms (bound.set name (.form form))
  | .variable _ _, [], _ => none
  | .literal name rest, form :: forms, bound =>
    if form.isSymbolNamed name && sameBinding name then rest.matchForms sameBinding forms bound
    else none
  | .literal _ _, [], _ => none
  | .sublist head rest, .list elements _ :: forms, bound =>
    match head.matchForms sameBinding elements ∅ with
    | some inner => rest.matchForms sameBinding forms (bound.setAll inner.entries)
    | none => none
  | .sublist _ _, _, _ => none
  | .repetition repeated names, forms, bound =>
    match forms.mapM fun form => repeated.matchForms sameBinding [form] ∅ with
    | some repetitions => some (bound.setAll (Bindings.gather names repetitions).entries)
    | none => none

end Pattern

/-- Matches a form, which has to be a list. -/
def CompiledPattern.matchForm? (p : CompiledPattern) (sameBinding : String → Bool) :
    Value → Option Bindings
  | .list elements _ => p.root.matchForms sameBinding elements ∅
  | _ => none

/-- Matches a form and forgets the repetitions. -/
def CompiledPattern.matchFlat? (p : CompiledPattern) (sameBinding : String → Bool) (form : Value) :
    Option (Table (List Value)) :=
  (p.matchForm? sameBinding form).map Bindings.flatten

/-- Compiles a pattern and matches a form, without the repetitions. That the form does not match is
an answer, too; only a pattern that is none is a fault. -/
def Pattern.matchFlat? (pattern : Value) (literals : List String) (sameBinding : String → Bool)
    (form : Value) : Except SyntaxFault (Option (Table (List Value))) :=
  (Pattern.compile pattern literals).map fun p => p.matchFlat? sameBinding form

/-! ### Small laws -/

theorem Tree.allForms_eq_flatMap (trees : List Tree) : allForms trees = trees.flatMap forms := by
  induction trees with
  | nil => rfl
  | cons tree trees ih => rw [allForms, List.flatMap_cons, ih]

/-- Flat bindings have the same names, each with the forms of its tree. -/
theorem Bindings.get?_flatten {b : Bindings} (h : b.names.Nodup) (name : String) :
    b.flatten.get? name = (b.get? name).map Tree.forms := by
  have hentries : (Table.ofPairs b.entries).get? name = b.get? name := by
    rw [Table.ofPairs, Table.get?_setAll Table.empty h, Table.get?_empty, Option.or_none]
    rfl
  rw [flatten, Table.map_ofPairs, Table.get?_map, hentries]

end SmallLisp
