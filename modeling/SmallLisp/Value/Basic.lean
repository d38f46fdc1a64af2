/-!
# Values

Programs and data share one type, `Value`: an expression is a value that someone evaluates.

Numbers, lists and procedures are objects, and the language can ask whether two of them are the
same one. Each carries its `Identity`. A value that has only just been built, by the reader, by a
primitive or from a template, has none yet; it receives one before anything can hold it twice
(`Settle`).
-/

namespace SmallLisp

/-- Which object a value is. -/
abbrev Identity := Nat

/-- The name of a frame in the store. -/
abbrev FrameId := Nat

/-- A chain of frames, innermost first. The empty chain is the empty environment. -/
abbrev Env := List FrameId

/-- The operations that primitive procedures perform. -/
inductive Operation where
  | car | cdr | cons | list | isNull | isPair
  | add | multiply | subtract | divide
  | numberEqual | less | greater | lessEqual | greaterEqual
  | isNumber | isSymbol | isString | isProcedure | isIdentical | isAlike
  | display | newline
  | error | apply
  deriving DecidableEq, Repr, Inhabited

/-- What a primitive procedure does: one of the operations of the language, or, for a procedure that
a host provides, recording its name and arguments in a list. -/
inductive Action where
  | operation (op : Operation)
  | record (name : String)
  deriving DecidableEq, Repr, Inhabited

/-- Expressions and the values they evaluate to. -/
inductive Value where
  | number (value : Float) (self : Option Identity)
  | string (text : String)
  | boolean (value : Bool)
  | symbol (name : String)
  | list (elements : List Value) (self : Option Identity)
  | primitive (action : Action) (self : Option Identity)
  /-- A procedure of the language: its name if it was defined with one, and the environment that it
  closes over. -/
  | compound (name : Option String) (parameters : List String) (body : List Value) (env : Env)
      (self : Option Identity)
  /-- A rule that expands forms: the literals of its patterns, its (pattern, template) clauses, and
  the environment of its definition. -/
  | transformer (name : String) (literals : List String) (clauses : List (Value × Value))
      (env : Env) (self : Option Identity)
  deriving Inhabited

namespace Operation

/-- The operations in the order in which a global environment binds them. -/
def all : List Operation :=
  [car, cdr, cons, list, isNull, isPair, add, multiply, subtract, divide, numberEqual, less,
   greater, lessEqual, greaterEqual, isNumber, isSymbol, isString, isProcedure, isIdentical,
   isAlike, display, newline, error, apply]

/-- The name that the language has for an operation. -/
def name : Operation → String
  | car => "car"
  | cdr => "cdr"
  | cons => "cons"
  | list => "list"
  | isNull => "null?"
  | isPair => "pair?"
  | add => "+"
  | multiply => "*"
  | subtract => "-"
  | divide => "/"
  | numberEqual => "="
  | less => "<"
  | greater => ">"
  | lessEqual => "<="
  | greaterEqual => ">="
  | isNumber => "number?"
  | isSymbol => "symbol?"
  | isString => "string?"
  | isProcedure => "procedure?"
  | isIdentical => "eq?"
  | isAlike => "equal?"
  | display => "display"
  | newline => "newline"
  | error => "error"
  | apply => "apply"

/-- The operation of a name. -/
def ofName? (name : String) : Option Operation :=
  all.find? (·.name == name)

end Operation

/-- The name that a primitive procedure shows. -/
def Action.name : Action → String
  | operation op => op.name
  | record name => name

namespace Value

/-- A number that has just been computed. -/
def num (x : Float) : Value := number x none

/-- A list that has just been built. -/
def ofList (elements : List Value) : Value := list elements none

/-- The answer of forms that are run for their effect. -/
def ok : Value := symbol "ok"

/-- Whether the value is a list. -/
def isList : Value → Bool
  | list _ _ => true
  | _ => false

/-- Whether the value is the symbol of that name. -/
def isSymbolNamed (name : String) : Value → Bool
  | symbol other => other == name
  | _ => false

/-- Only the boolean false is not truthy. -/
def isTruthy : Value → Bool
  | boolean false => false
  | _ => true

/-- Whether the value can be applied. -/
def isProcedure : Value → Bool
  | primitive _ _ => true
  | compound _ _ _ _ _ => true
  | _ => false

/-- What kind of thing a value is, in one word. -/
def typeName : Value → String
  | number _ _ => "number"
  | string _ => "string"
  | boolean _ => "boolean"
  | symbol _ => "symbol"
  | list _ _ => "list"
  | primitive _ _ => "procedure"
  | compound _ _ _ _ _ => "procedure"
  | transformer _ _ _ _ _ => "macro"

@[simp] theorem isTruthy_false : (boolean false).isTruthy = false := rfl

end Value

end SmallLisp
