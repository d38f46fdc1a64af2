import SmallLisp.Failure.Basic

/-!
# Reports

How a failure is shown: its kind and code, its message, the place if there is one, and a hint. The
hint follows from the code unless a report brings its own; an empty hint is not printed.
-/

namespace SmallLisp

/-- The families of failures. `general` is for reports of no family. -/
inductive Kind where
  | general
  | read
  | eval
  | usage
  deriving Repr, DecidableEq

/-- The word under which a family is printed. -/
def Kind.name : Kind → String
  | general => "CircletError"
  | read => "ReadError"
  | eval => "EvalError"
  | usage => "UsageError"

/-- A failure ready to be shown. -/
structure Report where
  kind : Kind
  code : Nat
  message : String
  location : Option Location
  hint : Option String
  deriving Repr, DecidableEq

/-- Advice for the failures of a code. -/
def hintOf? : Nat → Option String
  | 100 => some "The input may be incomplete - check for a missing closing parenthesis"
  | 101 => some "Remove the stray token or add the opening parenthesis it closes"
  | 102 => some "Add a closing quote to your string"
  | 103 => some "Use #t or #f for booleans"
  | 200 => some "Bind the name with 'define' before using or assigning it"
  | 201 => some "Only procedures can appear in operator position"
  | 203 => some "Review the shape this special form expects"
  | 204 => some "Check the procedure's parameter list for the number of arguments"
  | 205 => some "Check that you're passing the right type to this procedure"
  | 206 => some "Ensure the divisor is not zero before dividing"
  | 207 => some "Recursion is not tail-call optimized; reduce the recursion depth"
  | 300 => some "Extend the empty environment with a frame before defining into it"
  | 301 => some "Register special forms before the first evaluation"
  | _ => none

/-- A report of any kind and code. The given hint, even an empty one, goes before the advice for the
code. A usage report has no place and no hint of its own. -/
def Report.make (kind : Kind) (message : String) (code : Nat) (location : Option Location)
    (hint : Option String) : Report :=
  match kind with
  | .usage => ⟨kind, code, message, none, hintOf? code⟩
  | _ => ⟨kind, code, message, location, hint <|> hintOf? code⟩

def Failure.kind : Failure → Kind
  | .read _ _ => .read
  | .eval _ => .eval
  | .usage _ => .usage

def Failure.report (f : Failure) : Report :=
  Report.make f.kind f.message f.code f.location none

/-- A place as `file:line:column`; without a file name, or with an empty one, only the numbers. -/
def Location.text (l : Location) : String :=
  let file :=
    match l.file with
    | none | some "" => ""
    | some name => name ++ ":"
  file ++ l.line.repr ++ ":" ++ l.column.repr

/-- What a report shows beside its kind and message. -/
structure Report.Options where
  showHint : Bool := true
  showCode : Bool := true
  deriving Repr

/-- The lines of a report: kind, code and message; the place; the hint. -/
def Report.lines (r : Report) (options : Report.Options) : List String :=
  let code := if options.showCode then " [E" ++ r.code.repr ++ "]" else ""
  let place :=
    match r.location with
    | some l => ["  at " ++ l.text]
    | none => []
  let hint :=
    match r.hint with
    | none | some "" => []
    | some hint => if options.showHint then ["Hint: " ++ hint] else []
  (r.kind.name ++ code ++ ": " ++ r.message) :: (place ++ hint)

/-- The text of a report. -/
def Report.format (r : Report) (options : Report.Options := {}) : String :=
  "\n".intercalate (r.lines options)

/-! ### Failures of the host -/

/-- A failure of the host program, as far as it can be told: whether some bound of the host was
exceeded, and its message. -/
structure HostFault where
  outOfRange : Bool
  message : String
  deriving Repr, DecidableEq

/-- Whether `needle` occurs in `text`, letter case of ASCII aside. -/
def mentions (needle : List Char) : List Char → Bool
  | [] => needle.isEmpty
  | text@(_ :: rest) => needle.isPrefixOf (text.map Char.toLower) || mentions needle rest

/-- A host that ran out of call stack means recursion without end; any other failure of the host is
passed on with its message. -/
def Failure.ofHost (fault : HostFault) : Failure :=
  if fault.outOfRange && mentions "call stack".toList fault.message.toList then exhausted
  else eval (.userError fault.message)

end SmallLisp
