import SmallLisp.Repl

/-!
# The command line

With a file name the program runs that file and is silent about its value; without one, or with an
empty one, it is the interactive loop on its input. Failures and the trace go to the error stream,
and a failure of a file makes the status 1.
-/

namespace SmallLisp.CommandLine

/-- What a run of the program leaves behind. -/
structure Outcome where
  status : Nat
  output : String
  errors : String
  deriving Repr, DecidableEq

/-- Why a file cannot be read. -/
inductive FileFault where
  | missing (path : String)
  /-- Something on the way to the file is a file itself. -/
  | notDirectory (path : String)
  | directory
  deriving Repr, DecidableEq

def FileFault.message : FileFault → String
  | missing path => "ENOENT: no such file or directory, open '" ++ path ++ "'"
  | notDirectory path => "ENOTDIR: not a directory, open '" ++ path ++ "'"
  | directory => "EISDIR: illegal operation on a directory, read"

/-- The setting of the trace variable that turns the trace on. -/
def isTracing (setting : Option String) : Bool :=
  setting == some "1"

/-- The file to run, if one is named. -/
def target? : List String → Option String
  | [] => none
  | path :: _ => if path.isEmpty then none else some path

/-- The texts of effects on the output stream. -/
def outputOf (effects : List Effect) : String :=
  String.join <| effects.map fun
    | .out text => text
    | .display text => text
    | _ => ""

/-- The texts of effects on the error stream; a failure ends its line. -/
def errorsOf (effects : List Effect) : String :=
  String.join <| effects.map fun
    | .trace text => text
    | .failure text => text ++ "\n"
    | _ => ""

/-- The outcome of effects. -/
def outcomeOf (status : Nat) (effects : List Effect) : Outcome :=
  { status, output := outputOf effects, errors := errorsOf effects }

/-- The outcome of a failure before anything ran. -/
def refuse (failure : Failure) : Outcome :=
  outcomeOf 1 [.failure failure.report.format]

/-- Runs the text of a file. -/
def runFile (session : Session) (path : String) (contents : Except FileFault String) : Outcome :=
  match contents with
  | .error fault => refuse (.ofHost { outOfRange := false, message := fault.message })
  | .ok source =>
    let (result, final) := session.run source path
    let effects := final.events.map Effect.ofEvent
    match result with
    | .ok _ => outcomeOf 0 effects
    | .error failure => outcomeOf 1 (effects ++ [.failure failure.report.format])

/-- Runs the interactive loop on an input. -/
def runLoop (session : Session) (input : String) : Outcome :=
  outcomeOf 0 (Repl.transcript session input)

/-- The session of the program: the core forms and the prelude. -/
def session (tracing : Bool) : Except Failure Session :=
  Session.start SpecialForm.registry tracing true

end SmallLisp.CommandLine
