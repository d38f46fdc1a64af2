import SmallLisp.Text.Blank

/-!
# Tokens

The words of a source text. Blanks and comments, which run from a semicolon to the end of the line,
only separate words. `tokenize` cuts a text into lexemes, each a token together with the text from
its first character on. A string that the text does not close is a token too, so that nothing before
it is refused on its account.
-/

namespace SmallLisp.Source

open Text

/-- The words of a program. -/
inductive Token where
  | opening
  | closing
  | quoteMark
  | string (text : List Char)
  | atom (text : List Char)
  /-- A string that is never closed. -/
  | openString
  deriving Repr, DecidableEq

/-- A token and the text that starts with it. -/
structure Lexeme where
  token : Token
  start : List Char
  deriving Repr, DecidableEq

/-- The characters that end an atom without being blank. -/
def isDelimiter (c : Char) : Bool :=
  c == '(' || c == ')' || c == '\x27' || c == '\x22' || c == ';'

/-- The characters of atoms. -/
def isAtomChar (c : Char) : Bool :=
  !isDelimiter c && !isBlank c

/-- What a backslash and the character after it stand for in a string. -/
def unescape : Char → Char
  | 'n' => '\n'
  | 't' => '\t'
  | 'r' => '\r'
  | c => c

/-- The contents of a string from after its opening quote, and the text after its closing quote. -/
def scanString : List Char → Option (List Char × List Char)
  | [] => none
  | '\x22' :: rest => some ([], rest)
  | '\x5c' :: c :: rest => (scanString rest).map fun p => (unescape c :: p.1, p.2)
  | c :: rest => (scanString rest).map fun p => (c :: p.1, p.2)

theorem length_scanString {cs text rest : List Char} (h : scanString cs = some (text, rest)) :
    rest.length < cs.length := by
  induction cs using scanString.induct generalizing text with
  | case1 => simp [scanString] at h
  | case2 tail => simp_all [scanString]
  | case3 c tail ih =>
    simp only [scanString, Option.map_eq_some_iff, Prod.mk.injEq] at h
    obtain ⟨p, hp, -, rfl⟩ := h
    have := ih hp
    simp only [List.length_cons]
    omega
  -- an ordinary character; a dangling backslash is treated as one
  | case4 c tail h₁ h₂ ih =>
    rw [scanString.eq_4 _ _ h₁ h₂] at h
    simp only [Option.map_eq_some_iff, Prod.mk.injEq] at h
    obtain ⟨p, hp, -, rfl⟩ := h
    have := ih hp
    simp only [List.length_cons]
    omega

theorem length_dropWhile_le (p : Char → Bool) (cs : List Char) :
    (cs.dropWhile p).length ≤ cs.length :=
  (List.dropWhile_sublist p).length_le

/-- The lexemes of a text, from left to right. An unclosed string is the last one. -/
def tokenize (cs : List Char) : List Lexeme :=
  match cs with
  | [] => []
  | c :: rest =>
    if isBlank c then tokenize rest
    else if c == ';' then tokenize (rest.dropWhile (· ≠ '\n'))
    else if c == '(' then ⟨.opening, c :: rest⟩ :: tokenize rest
    else if c == ')' then ⟨.closing, c :: rest⟩ :: tokenize rest
    else if c == '\x27' then ⟨.quoteMark, c :: rest⟩ :: tokenize rest
    else if c == '\x22' then
      match _h : scanString rest with
      -- an open string takes the rest of the text
      | none => [⟨.openString, c :: rest⟩]
      | some (text, after) => ⟨.string text, c :: rest⟩ :: tokenize after
    else
      ⟨.atom (c :: rest.takeWhile isAtomChar), c :: rest⟩ :: tokenize (rest.dropWhile isAtomChar)
termination_by cs.length
decreasing_by
  all_goals simp only [List.length_cons]
  · omega
  · have := length_dropWhile_le (· ≠ '\n') rest
    omega
  · omega
  · omega
  · omega
  · have := length_scanString _h
    omega
  · have := length_dropWhile_le isAtomChar rest
    omega

end SmallLisp.Source
