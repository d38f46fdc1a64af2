import SmallLisp.Rules.Template
import SmallLisp.Environment.Store

/-!
# Transformers

A transformer turns a form into the template of the first of its clauses whose pattern matches.
Whatever stands in the keyword position, of the pattern and of the form, is ignored. Every pattern
is checked when the transformer is made.
-/

namespace SmallLisp.Transformer

/-- The pattern of a clause without its keyword, compiled. -/
def compileClause (literals : List String) : Value → Except SyntaxFault CompiledPattern
  | .list (_ :: operands) _ => Pattern.compile (.ofList operands) literals
  | _ => .error .clausePattern

/-- The names of a list of literals. -/
def literalNames : List Value → Except SyntaxFault (List String)
  | [] => .ok []
  | .symbol name :: rest => (literalNames rest).map (name :: ·)
  | other :: _ => .error (.literalNotSymbol other.write)

/-- The clauses of a list of (pattern template) forms. -/
def clausesOf (literals : List String) : List Value → Except SyntaxFault (List (Value × Value))
  | [] => .ok []
  | .list [pattern, template] _ :: rest =>
    match compileClause literals pattern with
    | .ok _ => (clausesOf literals rest).map ((pattern, template) :: ·)
    | .error fault => .error fault
  | _ :: _ => .error .clauseShape

/-- The transformer that `(syntax-rules (literal …) (pattern template) …)` describes. -/
def make (name : String) (rules : Value) (env : Env) : Except SyntaxFault Value :=
  match rules with
  | .list (.symbol "syntax-rules" :: literalList :: clauseForms) _ =>
    match literalList with
    | .list literalForms _ =>
      match literalNames literalForms with
      | .error fault => .error fault
      | .ok literals =>
        (clausesOf literals clauseForms).map fun clauses =>
          .transformer name literals.eraseDups clauses env none
    | _ => .error .literalsNotList
  | _ => .error (.rulesShape name)

/-- The instance of the first clause that matches the operands, or `none` if no clause does. -/
def firstInstance? (sameBinding : String → Bool) (literals : List String) (operands : Value) :
    List (Value × Value) → Except SyntaxFault (Option Value)
  | [] => .ok none
  | (pattern, template) :: rest =>
    match compileClause literals pattern with
    | .error fault => .error fault
    | .ok compiled =>
      match compiled.matchForm? sameBinding operands with
      | some b => (Template.instantiate template b).map some
      | none => firstInstance? sameBinding literals operands rest

/-- Expands a form by a transformer. A literal matches where its name means the same in the
environment of the definition and in that of the use. -/
def expand (store : Store) (name : String) (literals : List String)
    (clauses : List (Value × Value)) (definition : Env) (form : List Value) (use : Env) :
    Except SyntaxFault Value :=
  match firstInstance? (store.agree definition use) literals (.ofList form.tail) clauses with
  | .error fault => .error fault
  | .ok (some expansion) => .ok expansion
  | .ok none => .error (.noClause name (Value.ofList form).write)

end SmallLisp.Transformer
