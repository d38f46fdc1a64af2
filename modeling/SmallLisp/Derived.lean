import SmallLisp.Value.Basic
import SmallLisp.Failure.Basic

/-!
# Derived forms

Forms that stand for other forms: `cond` for nested `if`s, and `let` for the application of a
`lambda`. The whole form is checked before it is evaluated, so a mistake in it is reported before
any part of it runs.
-/

namespace SmallLisp

/-- The derived forms. -/
inductive Derived where
  | conditional
  | binding
  deriving DecidableEq, Repr

namespace Derived

/-- The derived forms of the language. -/
def all : List Derived := [conditional, binding]

/-- The tag of a derived form. -/
def tag : Derived → String
  | conditional => "cond"
  | binding => "let"

/-- The derived form of a tag, among those given. -/
def ofTag? (forms : List Derived) (tag : String) : Option Derived :=
  forms.find? (·.tag == tag)

/-- Several expressions as one: none is the empty form, one is itself, more are a `begin`. -/
def sequence : List Value → Value
  | [] => .ofList []
  | [expression] => expression
  | expressions => .ofList (.symbol "begin" :: expressions)

/-- The clauses of a `cond` as nested `if`s. -/
def nestClauses : List Value → Except SyntaxFault Value
  | [] => .ok (.boolean false)
  | .list (test :: actions) _ :: rest =>
    if test.isSymbolNamed "else" then
      if rest.isEmpty then .ok (sequence actions) else .error .elseNotLast
    else
      (nestClauses rest).map fun otherwise =>
        .ofList [.symbol "if", test, sequence actions, otherwise]
  | _ :: _ => .error .condClauseShape

/-- The names and the value expressions of a list of (name value) pairs. -/
def splitBindings : List Value → Except SyntaxFault (List Value × List Value)
  | [] => .ok ([], [])
  | .list [.symbol name, value] _ :: rest =>
    (splitBindings rest).map fun (names, values) => (.symbol name :: names, value :: values)
  | _ :: _ => .error .letBindingShape

/-- The application that a `let` stands for. -/
def combination : List Value → Except SyntaxFault Value
  | _ :: .list bindings _ :: body =>
    if body.isEmpty then .error .letBody
    else
      (splitBindings bindings).map fun (names, values) =>
        .ofList (.ofList (.symbol "lambda" :: .ofList names :: body) :: values)
  | _ => .error .letBindings

/-- The form that a derived form, given by its elements, stands for. -/
def desugar (d : Derived) (form : List Value) : Except SyntaxFault Value :=
  match d with
  | conditional => nestClauses form.tail
  | binding => combination form

end Derived

end SmallLisp
