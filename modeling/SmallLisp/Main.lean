import SmallLisp.CommandLine

/-!
# The program

The outer layer: it reads the arguments, the trace variable and the file or the standard input, and
writes what the library makes of them.
-/

namespace SmallLisp.CommandLine

/-- The text of a file, or why there is none. -/
def readFile (path : String) : IO (Except FileFault String) := do
  try
    pure (.ok (← IO.FS.readFile path))
  catch
    | .inappropriateType none _ _ => pure (.error .directory)
    | .inappropriateType (some _) _ _ => pure (.error (.notDirectory path))
    | _ => pure (.error (.missing path))

/-- Writes effects to the two streams. -/
def write (effects : List Effect) : IO Unit := do
  IO.print (outputOf effects)
  (← IO.getStdout).flush
  IO.eprint (errorsOf effects)

/-- The interactive loop on the standard input, a line at a time. -/
partial def serve (l : Repl.Loop) : IO Unit := do
  let line ← (← IO.getStdin).getLine
  if line.isEmpty then write (Repl.finish l)
  else
    let (next, effects) := Repl.feedAll l (Repl.lines line)
    write effects
    serve next

/-- Runs the file that is named, or else the interactive loop. -/
def start (session : Session) (arguments : List String) : IO UInt32 := do
  match target? arguments with
  | some path =>
    let outcome := runFile session path (← readFile path)
    IO.print outcome.output
    IO.eprint outcome.errors
    pure outcome.status.toUInt32
  | none =>
    write [.out Repl.prompt]
    serve { session, pending := "" }
    pure 0

end SmallLisp.CommandLine

open SmallLisp in
/-- The program's entry point. -/
def main (arguments : List String) : IO UInt32 := do
  let tracing := CommandLine.isTracing (← IO.getEnv "CIRCLET_TRACE")
  match CommandLine.session tracing with
  | .ok session => CommandLine.start session arguments
  | .error failure =>
    let outcome := CommandLine.refuse failure
    IO.eprint outcome.errors
    pure outcome.status.toUInt32
