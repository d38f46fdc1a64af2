import SmallLisp.Source.Read

/-!
# Lexemes of a text

`tokenize` tests one character after the other. Here it gets one equation for each way in which a
text can begin, and `textInduction` is the induction that goes with them: a text is empty, or begins
with a blank, a comment, a mark, a string that is closed or is not, or an atom. No proof about texts
goes back to the tests.

The second part is about a text that goes on after a line feed. A line feed ends comments and atoms
and is no part of a closed string, so all lexemes stay what they are, but for a string that is still
open (`exists_leavesOpen`). Everything about lines that are read one by one rests on this.
-/

namespace SmallLisp.Source

open Text

/-! ### How a text can begin -/

theorem isBlank_of_isAtomChar {c : Char} (h : isAtomChar c = true) : isBlank c = false := by
  simp only [isAtomChar, Bool.and_eq_true, Bool.not_eq_true'] at h
  exact h.2

theorem isDelimiter_of_isAtomChar {c : Char} (h : isAtomChar c = true) : isDelimiter c = false := by
  simp only [isAtomChar, Bool.and_eq_true, Bool.not_eq_true'] at h
  exact h.1

/-- Induction over a text, one word at a time. -/
theorem textInduction {motive : List Char → Prop} (nil : motive [])
    (blank : ∀ c rest, isBlank c = true → motive rest → motive (c :: rest))
    (comment : ∀ rest, motive (rest.dropWhile (· ≠ '\n')) → motive (';' :: rest))
    (opening : ∀ rest, motive rest → motive ('(' :: rest))
    (closing : ∀ rest, motive rest → motive (')' :: rest))
    (quoteMark : ∀ rest, motive rest → motive ('\x27' :: rest))
    (openString : ∀ rest, scanString rest = none → motive ('\x22' :: rest))
    (string : ∀ rest text after, scanString rest = some (text, after) → motive after →
      motive ('\x22' :: rest))
    (atom : ∀ c rest, isAtomChar c = true → motive (rest.dropWhile isAtomChar) →
      motive (c :: rest))
    (cs : List Char) : motive cs := by
  induction cs using tokenize.induct with
  | case1 => exact nil
  | case2 c rest hblank ih => exact blank c rest hblank ih
  | case3 c rest _ hc ih => exact beq_iff_eq.1 hc ▸ comment rest ih
  | case4 c rest _ _ hc ih => exact beq_iff_eq.1 hc ▸ opening rest ih
  | case5 c rest _ _ _ hc ih => exact beq_iff_eq.1 hc ▸ closing rest ih
  | case6 c rest _ _ _ _ hc ih => exact beq_iff_eq.1 hc ▸ quoteMark rest ih
  | case7 c rest _ _ _ _ _ hc hscan => exact beq_iff_eq.1 hc ▸ openString rest hscan
  | case8 c rest _ _ _ _ _ hc text after hscan ih =>
    exact beq_iff_eq.1 hc ▸ string rest text after hscan ih
  | case9 c rest hblank hcomment hopening hclosing hquote hstring ih =>
    -- the character is none of those before, so it belongs to a word
    have hc : isAtomChar c = true := by simp_all [isAtomChar, isDelimiter]
    exact atom c rest hc ih

/-! ### One equation for each beginning -/

@[simp] theorem tokenize_nil : tokenize [] = [] := by
  rw [tokenize]

theorem tokenize_blank {c : Char} (h : isBlank c = true) (rest : List Char) :
    tokenize (c :: rest) = tokenize rest := by
  rw [tokenize, if_pos h]

@[simp] theorem tokenize_comment (rest : List Char) :
    tokenize (';' :: rest) = tokenize (rest.dropWhile (· ≠ '\n')) := by
  rw [tokenize]
  rfl

@[simp] theorem tokenize_opening (rest : List Char) :
    tokenize ('(' :: rest) = ⟨.opening, '(' :: rest⟩ :: tokenize rest := by
  rw [tokenize]
  rfl

@[simp] theorem tokenize_closing (rest : List Char) :
    tokenize (')' :: rest) = ⟨.closing, ')' :: rest⟩ :: tokenize rest := by
  rw [tokenize]
  rfl

@[simp] theorem tokenize_quoteMark (rest : List Char) :
    tokenize ('\x27' :: rest) = ⟨.quoteMark, '\x27' :: rest⟩ :: tokenize rest := by
  rw [tokenize]
  rfl

theorem tokenize_openString {rest : List Char} (h : scanString rest = none) :
    tokenize ('\x22' :: rest) = [⟨.openString, '\x22' :: rest⟩] := by
  rw [tokenize, if_neg (by decide), if_neg (by decide), if_neg (by decide), if_neg (by decide),
    if_neg (by decide), if_pos (by decide)]
  split
  · rfl
  · next heq =>
    rw [h] at heq
    cases heq

theorem tokenize_string {rest text after : List Char} (h : scanString rest = some (text, after)) :
    tokenize ('\x22' :: rest) = ⟨.string text, '\x22' :: rest⟩ :: tokenize after := by
  rw [tokenize, if_neg (by decide), if_neg (by decide), if_neg (by decide), if_neg (by decide),
    if_neg (by decide), if_pos (by decide)]
  split
  · next heq =>
    rw [h] at heq
    cases heq
  · next heq =>
    rw [h] at heq
    cases heq
    rfl

theorem tokenize_atom {c : Char} (h : isAtomChar c = true) (rest : List Char) :
    tokenize (c :: rest)
      = ⟨.atom (c :: rest.takeWhile isAtomChar), c :: rest⟩
          :: tokenize (rest.dropWhile isAtomChar) := by
  have hblank := isBlank_of_isAtomChar h
  have hdelimiter := isDelimiter_of_isAtomChar h
  simp only [isDelimiter, Bool.or_eq_false_iff] at hdelimiter
  simp [tokenize, hblank, hdelimiter]

/-! ### Going on after a line feed -/

/-- A lexeme of a text that goes on. -/
def Lexeme.extend (more : List Char) (l : Lexeme) : Lexeme :=
  { l with start := l.start ++ more }

@[simp] theorem Lexeme.token_extend (more : List Char) (l : Lexeme) :
    (l.extend more).token = l.token := rfl

theorem takeWhile_append_stop {p : Char → Bool} {stop : Char} (h : p stop = false)
    (cs more : List Char) : (cs ++ stop :: more).takeWhile p = cs.takeWhile p := by
  rw [List.takeWhile_append]
  split
  · next hall =>
    rw [List.takeWhile_cons_of_neg (by simp [h]), List.append_nil]
    exact (List.IsPrefix.eq_of_length (List.takeWhile_prefix p) hall).symm
  · rfl

theorem dropWhile_append_stop {p : Char → Bool} {stop : Char} (h : p stop = false)
    (cs more : List Char) : (cs ++ stop :: more).dropWhile p = cs.dropWhile p ++ stop :: more := by
  rw [List.dropWhile_append]
  split
  · next hall =>
    rw [List.dropWhile_cons_of_neg (by simp [h]), List.isEmpty_iff.1 hall, List.nil_append]
  · rfl

/-- A character of a string that is neither its closing quote nor an escape. -/
theorem scanString_plain {c : Char} (hquote : c ≠ '\x22') (hescape : c ≠ '\x5c')
    (rest : List Char) :
    scanString (c :: rest) = (scanString rest).map fun p => (c :: p.1, p.2) :=
  scanString.eq_4 c rest hquote fun _ _ h _ => hescape h

/-- What remains for the last rule of `scanString`: another character, or a backslash at the end of
the text. -/
theorem plain_or_dangling {c : Char} {rest : List Char}
    (h : ∀ next after, c = '\x5c' → rest = next :: after → False) :
    c ≠ '\x5c' ∨ c = '\x5c' ∧ rest = [] := by
  by_cases hc : c = '\x5c'
  · cases rest with
    | nil => exact .inr ⟨hc, rfl⟩
    | cons next after => exact (h next after hc rfl).elim
  · exact .inl hc

/-- A closed string does not see what comes after it. -/
theorem scanString_append {cs text rest : List Char} (h : scanString cs = some (text, rest))
    (more : List Char) : scanString (cs ++ more) = some (text, rest ++ more) := by
  induction cs using scanString.induct generalizing text with
  | case1 => cases h
  | case2 tail =>
    cases h
    rfl
  | case3 c tail ih =>
    rw [scanString] at h
    obtain ⟨⟨inner, after⟩, hscan, heq⟩ := Option.map_eq_some_iff.1 h
    cases heq
    rw [List.cons_append, List.cons_append, scanString, ih hscan]
    rfl
  | case4 c tail hquote hescape ih =>
    rcases plain_or_dangling hescape with hplain | ⟨rfl, rfl⟩
    · rw [scanString_plain hquote hplain] at h
      obtain ⟨⟨inner, after⟩, hscan, heq⟩ := Option.map_eq_some_iff.1 h
      cases heq
      rw [List.cons_append, scanString_plain hquote hplain, ih hscan]
      rfl
    · -- the string would be open
      cases h

/-- A string that is open at the end of a text is closed by a quote on the next line, even if the
text ends with a backslash: that one escapes the line feed. -/
theorem exists_scanString_close {cs : List Char} (h : scanString cs = none) (more : List Char) :
    ∃ text, scanString (cs ++ '\n' :: '\x22' :: more) = some (text, more) := by
  induction cs using scanString.induct with
  | case1 => exact ⟨['\n'], rfl⟩
  | case2 tail => cases h
  | case3 c tail ih =>
    rw [scanString, Option.map_eq_none_iff] at h
    obtain ⟨text, htext⟩ := ih h
    exact ⟨unescape c :: text, by
      rw [List.cons_append, List.cons_append, scanString, htext]
      rfl⟩
  | case4 c tail hquote hescape ih =>
    rcases plain_or_dangling hescape with hplain | ⟨rfl, rfl⟩
    · rw [scanString_plain hquote hplain, Option.map_eq_none_iff] at h
      obtain ⟨text, htext⟩ := ih h
      exact ⟨c :: text, by
        rw [List.cons_append, scanString_plain hquote hplain, htext]
        rfl⟩
    · -- the backslash escapes the newline, and the quote closes the string
      exact ⟨['\n'], rfl⟩

/-- The lexemes of a text are closed ones and then those of `rest`, which is nothing or a string
that is open at the end of the text. When the text goes on after a line feed, the closed lexemes
stay and only `rest` goes on. -/
structure LeavesOpen (cs : List Char) (closed : List Lexeme) (rest : List Char) : Prop where
  rest_eq : rest = [] ∨ ∃ body, rest = '\x22' :: body ∧ scanString body = none
  closed_ne : ∀ l ∈ closed, l.token ≠ .openString
  tokenize_eq : tokenize cs = closed ++ tokenize rest
  tokenize_append : ∀ more, tokenize (cs ++ '\n' :: more)
    = closed.map (Lexeme.extend ('\n' :: more)) ++ tokenize (rest ++ '\n' :: more)

namespace LeavesOpen

variable {cs after rest : List Char} {closed : List Lexeme}

/-- What separates words plays no part. -/
theorem skip (h : LeavesOpen after closed rest) (heq : tokenize cs = tokenize after)
    (hmore : ∀ more, tokenize (cs ++ '\n' :: more) = tokenize (after ++ '\n' :: more)) :
    LeavesOpen cs closed rest where
  rest_eq := h.rest_eq
  closed_ne := h.closed_ne
  tokenize_eq := heq.trans h.tokenize_eq
  tokenize_append more := (hmore more).trans (h.tokenize_append more)

/-- One more closed lexeme in front. -/
theorem cons (h : LeavesOpen after closed rest) {l : Lexeme}
    (heq : tokenize cs = l :: tokenize after) (hl : l.token ≠ .openString)
    (hmore : ∀ more, tokenize (cs ++ '\n' :: more)
      = l.extend ('\n' :: more) :: tokenize (after ++ '\n' :: more)) :
    LeavesOpen cs (l :: closed) rest where
  rest_eq := h.rest_eq
  closed_ne := List.forall_mem_cons.2 ⟨hl, h.closed_ne⟩
  tokenize_eq := by rw [heq, h.tokenize_eq, List.cons_append]
  tokenize_append more := by
    rw [hmore, h.tokenize_append, List.map_cons, List.cons_append]

end LeavesOpen

/-- **What a line feed leaves open**: at most a string. -/
theorem exists_leavesOpen (cs : List Char) : ∃ closed rest, LeavesOpen cs closed rest := by
  induction cs using textInduction with
  | nil => exact ⟨[], [], .inl rfl, nofun, rfl, fun _ => rfl⟩
  | blank c rest hblank ih =>
    obtain ⟨closed, open', h⟩ := ih
    exact ⟨closed, open', h.skip (tokenize_blank hblank rest) fun _ => tokenize_blank hblank _⟩
  -- the line feed ends a comment as well
  | comment rest ih =>
    obtain ⟨closed, open', h⟩ := ih
    refine ⟨closed, open', h.skip (tokenize_comment rest) fun more => ?_⟩
    rw [List.cons_append, tokenize_comment, dropWhile_append_stop (by simp)]
  | opening rest ih =>
    obtain ⟨closed, open', h⟩ := ih
    exact ⟨_, open', h.cons (tokenize_opening rest) nofun fun _ => tokenize_opening _⟩
  | closing rest ih =>
    obtain ⟨closed, open', h⟩ := ih
    exact ⟨_, open', h.cons (tokenize_closing rest) nofun fun _ => tokenize_closing _⟩
  | quoteMark rest ih =>
    obtain ⟨closed, open', h⟩ := ih
    exact ⟨_, open', h.cons (tokenize_quoteMark rest) nofun fun _ => tokenize_quoteMark _⟩
  -- from here on everything belongs to the string
  | openString rest hscan =>
    exact ⟨[], '\x22' :: rest, .inr ⟨rest, rfl, hscan⟩, nofun, rfl, fun _ => rfl⟩
  | string rest text after hscan ih =>
    obtain ⟨closed, open', h⟩ := ih
    exact ⟨_, open', h.cons (tokenize_string hscan) nofun fun _ =>
      tokenize_string (scanString_append hscan _)⟩
  | atom c rest hc ih =>
    obtain ⟨closed, open', h⟩ := ih
    refine ⟨_, open', h.cons (tokenize_atom hc rest) nofun fun more => ?_⟩
    -- the line feed ends the atom
    have hstop : isAtomChar '\n' = false := by decide
    rw [List.cons_append, tokenize_atom hc, takeWhile_append_stop hstop,
      dropWhile_append_stop hstop]
    rfl

end SmallLisp.Source
