import SmallLisp.Source.Token
import SmallLisp.Text.Units
import SmallLisp.Number.Text
import SmallLisp.Value.Basic
import SmallLisp.Failure.Basic

/-!
# Reading expressions

Tokens become expressions in one pass with a stack of what is still open: lists with the elements
read so far, and quote marks that wait for their datum. The pass stops at the first token that
cannot stand where it is; what remains open at the end is a text that more text could complete.

A fault is reported with the text from the offending place on, and `locate` turns that into a line
and a column.
-/

namespace SmallLisp.Source

open Text

/-- Something that was opened and waits for more. -/
inductive Pending where
  /-- A quote mark before its datum. -/
  | quoted
  /-- A list with the elements read so far, the last one first. -/
  | items (reversed : List Value)

/-- How far a reading has come: the complete expressions, the last one first, and what is open, the
innermost first. -/
structure Reading where
  finished : List Value
  pending : List Pending

namespace Reading

/-- Nothing read and nothing open. -/
def start : Reading := ⟨[], []⟩

/-- The form that a quote mark before a datum stands for. -/
def quoteForm (datum : Value) : Value :=
  .ofList [.symbol "quote", datum]

/-- Puts a complete datum where it belongs: into the innermost open list, or at the end of what is
finished. Every quote mark that waits for it wraps it. -/
def place (finished : List Value) (datum : Value) : List Pending → Reading
  | [] => ⟨datum :: finished, []⟩
  | .quoted :: pending => place finished (quoteForm datum) pending
  | .items reversed :: pending => ⟨finished, .items (datum :: reversed) :: pending⟩

/-- The value of an atom: a boolean after a hash sign, a number if it is a numeral, else a
symbol. -/
def ofAtom (text : List Char) : Except ReadFault Value :=
  if text.head? = some '#' then
    if text = "#t".toList ∨ text = "#true".toList then .ok (.boolean true)
    else if text = "#f".toList ∨ text = "#false".toList then .ok (.boolean false)
    else .error (.invalidLiteral (String.ofList text))
  else
    match Number.ofNumeral? text with
    | some x => .ok (.num x)
    | none => .ok (.symbol (String.ofList text))

/-- Reads one more token. -/
def step (r : Reading) : Token → Except ReadFault Reading
  | .opening => .ok ⟨r.finished, .items [] :: r.pending⟩
  | .quoteMark => .ok ⟨r.finished, .quoted :: r.pending⟩
  | .closing =>
    match r.pending with
    | .items reversed :: pending => .ok (place r.finished (.ofList reversed.reverse) pending)
    | _ => .error (.unexpectedToken ")")
  | .string text => .ok (place r.finished (.string (String.ofList text)) r.pending)
  | .atom text => (ofAtom text).map fun datum => place r.finished datum r.pending
  | .openString => .error .unterminatedString

end Reading

/-- A fault and the text from the offending place on. -/
structure Misread where
  fault : ReadFault
  rest : List Char

/-- Reads all lexemes. -/
def run (r : Reading) : List Lexeme → Except Misread Reading
  | [] => .ok r
  | l :: ls =>
    match r.step l.token with
    | .ok r => run r ls
    | .error fault => .error ⟨fault, l.start⟩

/-- The expressions of a text. -/
def readAll (cs : List Char) : Except Misread (List Value) :=
  match run .start (tokenize cs) with
  | .ok ⟨finished, []⟩ => .ok finished.reverse
  | .ok _ => .error ⟨.unexpectedEnd, []⟩
  | .error misread => .error misread

/-- The first expression of the lexemes, and the lexemes after it. -/
def next (r : Reading) : List Lexeme → Except Misread (Value × List Lexeme)
  | [] =>
    match r.finished with
    | v :: _ => .ok (v, [])
    | [] => .error ⟨.unexpectedEnd, []⟩
  | l :: ls =>
    match r.finished with
    | v :: _ => .ok (v, l :: ls)
    | [] =>
      match r.step l.token with
      | .ok r => next r ls
      | .error fault => .error ⟨fault, l.start⟩

/-- The one expression of a text, after which nothing may follow. -/
def readSingle (cs : List Char) : Except Misread Value :=
  match next .start (tokenize cs) with
  | .ok (v, []) => .ok v
  | .ok (_, l :: _) => .error ⟨.unexpectedToken (String.ofList (l.start.take 1)), l.start⟩
  | .error misread => .error misread

/-! ### Places -/

/-- The place after the given text: one line more than it has line feeds, one column more than the
code units of its last line. -/
def locate (before : List Char) (file : Option String) : Location :=
  { line := before.count '\n' + 1
    column := unitCount (before.reverse.takeWhile (· ≠ '\n')) + 1
    file }

/-- The failure of a misread text. -/
def Misread.failure (m : Misread) (cs : List Char) (file : Option String) : Failure :=
  .read m.fault (some (locate (cs.take (cs.length - m.rest.length)) file))

/-- Every expression of a source text. -/
def read (source : String) (file : Option String) : Except Failure (List Value) :=
  (readAll source.toList).mapError fun m => m.failure source.toList file

/-- The only expression of a source text. -/
def readOne (source : String) (file : Option String) : Except Failure Value :=
  (readSingle source.toList).mapError fun m => m.failure source.toList file

/-- Whether no more text is needed: every expression is complete, or the text has a fault that more
text cannot mend. -/
def isComplete (cs : List Char) : Bool :=
  match readAll cs with
  | .ok _ => true
  | .error m => !m.fault.isIncomplete

end SmallLisp.Source
