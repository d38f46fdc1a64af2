import SmallLisp.Session
import SmallLisp.Failure.Report

/-!
# The interactive loop

The loop gathers lines until they are complete, runs them as one text and shows the value or the
failure. It is a pure function from lines to effects: what goes to the output, what the program
writes, the trace, and the failures, in order.
-/

namespace SmallLisp

/-- Something that the loop lets the outside see. -/
inductive Effect where
  /-- Prompts and results. -/
  | out (text : String)
  /-- What the program writes. -/
  | display (text : String)
  /-- A line of the trace, with its line feed. -/
  | trace (text : String)
  /-- The text of a failure. -/
  | failure (text : String)
  deriving Repr, DecidableEq

def Effect.ofEvent : Event → Effect
  | .output text => display text
  | .trace line => trace (line ++ "\n")

namespace Repl

def prompt : String := "; circlet> "

/-- The prompt inside an expression, as wide as the other one. -/
def continuation : String := "; ...      "

def resultMark : String := ";= "

/-- The loop between two lines: its session and the lines that wait for more. -/
structure Loop where
  session : Session
  pending : String

/-- The text to run once a line is added to those that wait. -/
def join (pending line : String) : String :=
  if pending.isEmpty then line else pending ++ "\n" ++ line

/-- The text to run after one more line, if the lines that wait are complete with it, and the lines
that wait then. -/
def offer (pending line : String) : Option String × String :=
  let text := join pending line
  if Source.isComplete text.toList then (some text, "") else (none, text)

/-- The effects of a finished run. -/
def shown : Except Failure (Option Value) → List Effect
  | .ok (some v) => [.out (resultMark ++ v.write ++ "\n")]
  | .ok none => []
  | .error failure => [.failure failure.report.format]

/-- One more line. -/
def feed (l : Loop) (line : String) : Loop × List Effect :=
  match offer l.pending line with
  | (some text, pending) =>
    let (result, session) := l.session.run text none
    ({ session := session.drain, pending },
      session.events.map Effect.ofEvent ++ shown result ++ [.out prompt])
  | (none, pending) => ({ l with pending }, [.out continuation])

/-- All lines in turn. -/
def feedAll (l : Loop) : List String → Loop × List Effect
  | [] => (l, [])
  | line :: lines =>
    let (next, effects) := feed l line
    let (last, more) := feedAll next lines
    (last, effects ++ more)

/-- The end of the input. Of lines that still wait the failure is told, unless they are blank. -/
def finish (l : Loop) : List Effect :=
  let complaint :=
    if l.pending.toList.all Text.isBlank then []
    else
      match Source.read l.pending none with
      | .ok _ => []
      | .error failure => [.failure failure.report.format]
  complaint ++ [.out "\n"]

/-- The lines of an input. A line ends at a line feed, at a carriage return, at both together if the
line feed comes second, or at the end of the input; `line` is what was read of the first one,
reversed. -/
def linesFrom (line : List Char) : List Char → List String
  | [] => if line.isEmpty then [] else [String.ofList line.reverse]
  | '\r' :: '\n' :: rest => String.ofList line.reverse :: linesFrom [] rest
  | '\r' :: rest => String.ofList line.reverse :: linesFrom [] rest
  | '\n' :: rest => String.ofList line.reverse :: linesFrom [] rest
  | c :: rest => linesFrom (c :: line) rest

/-- The lines of an input. -/
def lines (input : String) : List String :=
  linesFrom [] input.toList

/-- All effects of the loop on an input. -/
def transcript (session : Session) (input : String) : List Effect :=
  let (last, effects) := feedAll { session := session.drain, pending := "" } (lines input)
  .out prompt :: (effects ++ finish last)

/-- Joins neighbouring effects that go to the same place; failures stay apart. -/
def coalesce : List Effect → List Effect
  | [] => []
  | e :: es =>
    match e, coalesce es with
    | .out a, .out b :: rest => .out (a ++ b) :: rest
    | .display a, .display b :: rest => .display (a ++ b) :: rest
    | .trace a, .trace b :: rest => .trace (a ++ b) :: rest
    | e, rest => e :: rest

end Repl

end SmallLisp
