import SmallLisp.Session
import SmallLisp.Text.Units

/-!
# Completion

The names that may complete a line: the tags of the special forms and the names in scope that begin
with the last word of the line.
-/

namespace SmallLisp.Completion

open Text

/-- The characters of a word to be completed. -/
def isWordChar (c : Char) : Bool :=
  !isBlank c && c != '(' && c != ')' && c != '\x27'

/-- The last word of a line, empty if the line ends with a character of no word. -/
def lastWord (line : String) : String :=
  String.ofList (line.toList.reverse.takeWhile isWordChar).reverse

/-- The names that begin with a word, sorted. A name that is both a tag and bound comes twice. -/
def candidates (s : Session) (word : String) : List String :=
  sortNames ((s.tags ++ s.names).filter fun name => word.toList.isPrefixOf name.toList)

end SmallLisp.Completion
