import SmallLisp.Value.Equality
import SmallLisp.Value.Spelling
import SmallLisp.Failure.Basic

/-!
# Primitive operations

`Operation.perform` is what each operation makes of its arguments. It is a pure function: an
operation that writes answers the text, and one that applies a procedure answers the application,
for the evaluator to carry out. Each operation checks how many arguments it has before it looks at
them.
-/

namespace SmallLisp

/-- What an operation asks for. -/
inductive Reply where
  /-- The result. -/
  | value (v : Value)
  /-- Text to write; the result is `ok`. -/
  | output (text : String)
  /-- A procedure to apply; its result is the result. -/
  | application (procedure : Value) (arguments : List Value)

namespace Operation

/-- Exactly one argument. -/
def exactlyOne (arguments : List Value) (use : Value → Except EvalFault α) : Except EvalFault α :=
  match arguments with
  | [a] => use a
  | _ => .error (.arityMismatch (.exactly 1) arguments.length)

/-- Exactly two arguments. -/
def exactlyTwo (arguments : List Value) (use : Value → Value → Except EvalFault α) :
    Except EvalFault α :=
  match arguments with
  | [a, b] => use a b
  | _ => .error (.arityMismatch (.exactly 2) arguments.length)

/-- At least one argument. -/
def atLeastOne (arguments : List Value) (use : Except EvalFault α) : Except EvalFault α :=
  match arguments with
  | [] => .error (.arityMismatch (.atLeast 1) 0)
  | _ :: _ => use

/-- The number that an argument of the operation is. -/
def numberOf (op : Operation) : Value → Except EvalFault Float
  | .number x _ => .ok x
  | other => .error (.typeError op.name "a number" other.typeName)

/-- The numbers that all arguments are. -/
def numbersOf (op : Operation) : List Value → Except EvalFault (List Float)
  | [] => .ok []
  | a :: rest =>
    match op.numberOf a with
    | .ok x => (op.numbersOf rest).map (x :: ·)
    | .error fault => .error fault

/-- The elements of an argument of the operation. -/
def elementsOf (op : Operation) : Value → Except EvalFault (List Value)
  | .list elements _ => .ok elements
  | other => .error (.typeError op.name "a list" other.typeName)

/-- The first element of an argument and the elements after it. -/
def headOf (op : Operation) (v : Value) : Except EvalFault (Value × List Value) :=
  match op.elementsOf v with
  | .ok (head :: tail) => .ok (head, tail)
  | .ok [] => .error (.typeError op.name "a non-empty list" "()")
  | .error fault => .error fault

/-- Whether each number is related to the next. -/
def chained (related : Float → Float → Bool) : List Float → Bool
  | x :: y :: rest => related x y && chained related (y :: rest)
  | _ => true

/-- Compares at least one number. -/
def compare (op : Operation) (related : Float → Float → Bool) (arguments : List Value) :
    Except EvalFault Reply :=
  atLeastOne arguments <|
    (op.numbersOf arguments).map fun xs => .value (.boolean (chained related xs))

/-- Joins all numbers, starting from a neutral one. -/
def joinNumbers (op : Operation) (neutral : Float) (join : Float → Float → Float)
    (arguments : List Value) : Except EvalFault Reply :=
  (op.numbersOf arguments).map fun xs => .value (.num (xs.foldl join neutral))

/-- Tests one value. -/
def test (holds : Value → Bool) (arguments : List Value) : Except EvalFault Reply :=
  exactlyOne arguments fun v => .ok (.value (.boolean (holds v)))

/-- One number negated, or the first minus all others. -/
def difference : List Float → Float
  | [] => 0
  | [x] => -x
  | x :: rest => rest.foldl (· - ·) x

/-- One number inverted, or the first divided by all others in turn. -/
def quotient : List Float → Except EvalFault Float
  | [] => .ok 1
  | [x] => if x == 0 then .error .divisionByZero else .ok (1 / x)
  | x :: rest =>
    if rest.any (· == 0) then .error .divisionByZero else .ok (rest.foldl (· / ·) x)

/-- Whether the value is the empty list. -/
def isEmptyList : Value → Bool
  | .list [] _ => true
  | _ => false

/-- Whether the value is a list with elements. -/
def isFilledList : Value → Bool
  | .list (_ :: _) _ => true
  | _ => false

/-- What an operation makes of its arguments. -/
def perform (op : Operation) (arguments : List Value) : Except EvalFault Reply :=
  match op with
  | car => exactlyOne arguments fun v => (op.headOf v).map fun p => .value p.1
  | cdr => exactlyOne arguments fun v => (op.headOf v).map fun p => .value (.ofList p.2)
  | cons =>
    -- There are no pairs: a tail that is no list becomes the last element.
    exactlyTwo arguments fun head tail =>
      match tail with
      | .list elements _ => .ok (.value (.ofList (head :: elements)))
      | other => .ok (.value (.ofList [head, other]))
  | list => .ok (.value (.ofList arguments))
  | isNull => test isEmptyList arguments
  | isPair => test isFilledList arguments
  | add => op.joinNumbers 0 (· + ·) arguments
  | multiply => op.joinNumbers 1 (· * ·) arguments
  | subtract =>
    atLeastOne arguments <| (op.numbersOf arguments).map fun xs => .value (.num (difference xs))
  | divide =>
    atLeastOne arguments <|
      match op.numbersOf arguments with
      | .ok xs => (quotient xs).map fun x => .value (.num x)
      | .error fault => .error fault
  | numberEqual => op.compare (· == ·) arguments
  | less => op.compare (fun x y => x < y) arguments
  | greater => op.compare (fun x y => y < x) arguments
  | lessEqual => op.compare (fun x y => x ≤ y) arguments
  | greaterEqual => op.compare (fun x y => y ≤ x) arguments
  | isNumber => test (·.typeName == "number") arguments
  | isSymbol => test (·.typeName == "symbol") arguments
  | isString => test (·.typeName == "string") arguments
  | isProcedure => test Value.isProcedure arguments
  | isIdentical => exactlyTwo arguments fun a b => .ok (.value (.boolean (a.isIdentical b)))
  | isAlike => exactlyTwo arguments fun a b => .ok (.value (.boolean (a.isAlike b)))
  | display => exactlyOne arguments fun v => .ok (.output v.display)
  | newline =>
    match arguments with
    | [] => .ok (.output "\n")
    | _ => .error (.arityMismatch (.exactly 0) arguments.length)
  | error =>
    atLeastOne arguments <| .error (.userError (" ".intercalate (arguments.map Value.display)))
  | apply =>
    exactlyTwo arguments fun procedure v =>
      (op.elementsOf v).map fun vs => .application procedure vs

end Operation

end SmallLisp
