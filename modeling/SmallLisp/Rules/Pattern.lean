import SmallLisp.Table
import SmallLisp.Value.Spelling
import SmallLisp.Failure.Basic

/-!
# Patterns

A pattern is a list of symbols and patterns. A symbol that is a literal stands for itself, any other
is a variable; an element before a final `...` may be repeated. `Pattern.compile` checks this shape
and records how many ellipses each variable is under.

Compilation goes from right to left, the rest of a list before its first element, and checks the
place of an ellipsis on the way in; of several mistakes that order decides which one is reported.
-/

namespace SmallLisp

/-- The symbol that repeats what stands before it. -/
def ellipsis : String := "..."

/-- Whether the value is the symbol `...`. -/
def Value.isEllipsis (v : Value) : Bool :=
  v.isSymbolNamed ellipsis

/-- A pattern for a sequence of forms. -/
inductive Pattern where
  /-- No form. -/
  | empty
  /-- Any form, then the rest. -/
  | variable (name : String) (rest : Pattern)
  /-- The symbol of that name, then the rest. -/
  | literal (name : String) (rest : Pattern)
  /-- A list whose elements match `head`, then the rest. -/
  | sublist (head rest : Pattern)
  /-- Any number of forms, each of which matches the one-element pattern `repeated`, whose variables
  are `names`. -/
  | repetition (repeated : Pattern) (names : List String)
  deriving Repr, DecidableEq, Inhabited

/-- A pattern with the number of ellipses above each of its variables. -/
structure CompiledPattern where
  root : Pattern
  depths : Table Nat

namespace Pattern

mutual

/-- Compiles the elements of a list that is under `depth` ellipses, given the variables found so
far. -/
def compileSequence (literals : List String) (elements : List Value) (depth : Nat)
    (depths : Table Nat) : Except SyntaxFault (Pattern × Table Nat) :=
  match elements with
  | [] => .ok (.empty, depths)
  | element :: rest =>
    if element.isEllipsis then .error .ellipsisFirst
    else if (rest.head?.any Value.isEllipsis) then
      if rest.length ≠ 1 then .error .ellipsisNotLast
      else
        match compileElement literals element .empty (depth + 1) depths with
        | .ok (repeated, found) =>
          .ok (.repetition repeated (found.names.filter fun name => !depths.contains name), found)
        | .error fault => .error fault
    else
      -- the rest comes first, so that the variables are found from the right
      match compileSequence literals rest depth depths with
      | .ok (after, found) => compileElement literals element after depth found
      | .error fault => .error fault

/-- Compiles one element in front of the compiled rest of its list. -/
def compileElement (literals : List String) (element : Value) (rest : Pattern) (depth : Nat)
    (depths : Table Nat) : Except SyntaxFault (Pattern × Table Nat) :=
  match element with
  | .symbol name =>
    if literals.contains name then .ok (.literal name rest, depths)
    else if depths.contains name then .error (.duplicateVariable name)
    else .ok (.variable name rest, depths.set name depth)
  | .list elements _ =>
    match compileSequence literals elements depth depths with
    | .ok (head, found) => .ok (.sublist head rest, found)
    | .error fault => .error fault
  | other => .error (.patternElement other.write)

end

/-- Compiles a pattern, whose symbols in `literals` stand for themselves. -/
def compile (pattern : Value) (literals : List String) : Except SyntaxFault CompiledPattern :=
  match pattern with
  | .list elements _ =>
    (compileSequence literals elements 0 ∅).map fun (root, depths) => { root, depths }
  | other => .error (.patternNotList other.write)

end Pattern

end SmallLisp
