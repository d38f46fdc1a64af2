import SmallLisp.Rules.Match

/-!
# Templates

A template is copied with its variables replaced by what they matched. An element that `...` follows
is copied once for every repetition of the variables in it, which therefore must agree in number;
further ellipses repeat the copies of the level below and put all of them into one sequence.

Symbols that are no variables are copied as they are, and no copy of a list is the same object as
any other.
-/

namespace SmallLisp.Template

mutual

/-- The symbols in a template, each once, by their first occurrence; `seen` holds those before
it. -/
def symbolsFrom (seen : List String) : Value → List String
  | .symbol name => if seen.contains name then seen else seen ++ [name]
  | .list elements _ => symbolsFromAll seen elements
  | _ => seen

/-- The symbols in several templates, by their first occurrence. -/
def symbolsFromAll (seen : List String) : List Value → List String
  | [] => seen
  | v :: vs => symbolsFromAll (symbolsFrom seen v) vs

end

/-- The variables among the names that are still repeated, with their repetitions. -/
def repeatedAmong (names : List String) (b : Bindings) : List (String × List Tree) :=
  names.filterMap fun name =>
    match b.get? name with
    | some (.repeated trees) => some (name, trees)
    | _ => none

/-- The bindings in each of `count` repetitions: those around the ellipsis, with each sequence
replaced by what stands in it for that repetition. -/
def rows (sequences : List (String × List Tree)) (count : Nat) (b : Bindings) : List Bindings :=
  sequences.foldr (fun p inner => p.2.zipWith (fun tree row => row.set p.1 tree) inner)
    (List.replicate count b)

/-- The bindings in each repetition of an element, where `names` are the symbols of the element. -/
def repetitions (names : List String) (b : Bindings) : Except SyntaxFault (List Bindings) :=
  match repeatedAmong names b with
  | [] => .error .nothingRepeated
  | first :: others =>
    let sequences := first :: others
    let count := first.2.length
    if others.all (·.2.length == count) then .ok (rows sequences count b)
    else .error (.repetitionLengths (sequences.map Prod.fst))

/-- The copies of an element under an ellipsis and `more` of them after it, where `build` makes one
copy and `names` are the symbols of the element. -/
def copies (build : Bindings → Except SyntaxFault Value) (names : List String) :
    Nat → Bindings → Except SyntaxFault (List Value)
  | 0, b => repetitions names b >>= List.mapM build
  | more + 1, b =>
    (repetitions names b >>= List.mapM (copies build names more)).map List.flatten

/-- The copies of a variable under one ellipsis, which need no bindings of their own
(`copies_symbol`). -/
def variableCopies (name : String) (b : Bindings) : Except SyntaxFault (List Value) :=
  match b.get? name with
  | some (.repeated trees) =>
    trees.mapM fun
      | .form value => .ok value
      | .repeated _ => .error (.variableNeedsEllipsis name)
  | _ => .error .nothingRepeated

/-- How many ellipses a list begins with. -/
def leadingEllipses (elements : List Value) : Nat :=
  (elements.takeWhile Value.isEllipsis).length

mutual

/-- The copy of a template. -/
def instantiate (template : Value) (b : Bindings) : Except SyntaxFault Value :=
  match template with
  | .symbol name =>
    match b.get? name with
    | none => .ok (.symbol name)
    | some (.form value) => .ok value
    | some (.repeated _) => .error (.variableNeedsEllipsis name)
  | .list elements _ => (instantiateAll false elements b).map .ofList
  | other => .ok other

/-- The copies of the elements of a list, one after the other. After an element (`after`) the
ellipses that belong to it are passed over. -/
def instantiateAll (after : Bool) (elements : List Value) (b : Bindings) :
    Except SyntaxFault (List Value) :=
  match elements with
  | [] => .ok []
  | element :: rest =>
    if after && element.isEllipsis then instantiateAll true rest b
    else
      let here := match leadingEllipses rest, element with
        | 0, _ => (instantiate element b).map ([·])
        | 1, .symbol name => variableCopies name b
        | more + 1, _ => copies (instantiate element) (symbolsFrom [] element) more b
      match here with
      | .error fault => .error fault
      | .ok here => (instantiateAll true rest b).map (here ++ ·)

end

/-- A row of one sequence is the bindings with that variable replaced. -/
theorem rows_singleton (name : String) (trees : List Tree) (b : Bindings) :
    rows [(name, trees)] trees.length b = trees.map (b.set name ·) := by
  induction trees with
  | nil => rfl
  | cons tree trees ih =>
    simpa [rows, List.replicate_succ] using ih

/-- The copies of a variable under one ellipsis are the same as those of any other element that has
this one symbol. -/
theorem copies_symbol (name : String) (b : Bindings) :
    copies (instantiate (.symbol name)) [name] 0 b = variableCopies name b := by
  cases bound : b.get? name with
  | none =>
    simp [copies, repetitions, repeatedAmong, variableCopies, bound, bind, Except.bind]
  | some tree =>
    cases tree with
    -- a variable without a level left has nothing to repeat, and both say so
    | form value =>
      simp [copies, repetitions, repeatedAmong, variableCopies, bound, bind, Except.bind]
    | repeated trees =>
      simp only [copies, repetitions, repeatedAmong, variableCopies, bound, List.filterMap_cons,
        List.filterMap_nil, List.all_nil, if_true, rows_singleton, bind, Except.bind,
        List.mapM_map]
      congr 1
      funext tree
      cases tree <;> simp [instantiate]

end SmallLisp.Template
