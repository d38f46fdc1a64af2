import SmallLisp.Proofs.Source.Places

/-!
# A reader that walks through the text

`Source.Read` reads a text word by word, with a stack of what is open. Here the same expressions are
read by recursive descent: a reader has a position in the text and counts lines and columns,
inspects the character there and goes on by one character at a time. Nothing in its loops and in its
recursion says that they come to an end. They are given a number of rounds, one less for the next
time around, so that a reader that goes on forever is `none` with every number of rounds. An
inspection outside of the text and an empty atom stop it for good (`Stop`).

This module has the reader, and what each of its inner loops does with the rest of the text: `skip`
finds where the next word begins (`exists_skip`), `readStringRest` does what `scanString` does
(`readStringRest_before`), and `readWord` takes the characters of an atom (`readWord_before`). The
state of a reader is always that before a suffix of its text (`Cursor.before`), and its lines and
columns are those of `locate`. `Proofs.Source.Progress` has the recursion, and that both ways of
reading are the same.
-/

namespace SmallLisp.Source.Descent

open Text

/-! ### The reader -/

/-- Where a reader is, and the line and the column that it has counted. -/
structure Cursor where
  position : Nat
  line : Nat
  column : Nat

namespace Cursor

/-- Before the first character. -/
def start : Cursor := ⟨0, 1, 1⟩

/-- After one more character, which takes as many columns as it has code units. -/
def next (c : Char) (s : Cursor) : Cursor :=
  if c = '\n' then ⟨s.position + 1, s.line + 1, 1⟩
  else ⟨s.position + 1, s.line, s.column + (units c).length⟩

end Cursor

/-- Why a reader stops without a value. -/
inductive Stop where
  /-- It reports a failure. -/
  | failure (failure : Failure)
  /-- It inspects a character where the text has none. -/
  | outside
  /-- It has read an atom without characters. -/
  | emptyAtom

/-- What a reader does. It is `none` if its rounds do not suffice. -/
abbrev Reader := StateT Cursor (ExceptT Stop Option)

/-- There are no more rounds. -/
def outOfRounds {α : Type} : Reader α := fun _ => none

section

variable (cs : List Char) (file : Option String)

def isAtEnd : Reader Bool :=
  return decide (cs.length ≤ (← get).position)

/-- The character at the position. -/
def peek : Reader Char := do
  match cs[(← get).position]? with
  | some c => pure c
  | none => throw .outside

/-- Goes past the character at the position. -/
def advance : Reader Char := do
  let c ← peek cs
  modify (Cursor.next c)
  pure c

def location : Reader Location := do
  let s ← get
  pure ⟨s.line, s.column, file⟩

def report {α : Type} (fault : ReadFault) (location : Location) : Reader α :=
  throw (.failure (.read fault (some location)))

/-- Goes on to the end of the line. -/
def skipLine : Nat → Reader Unit
  | 0 => outOfRounds
  | rounds + 1 => do
    if ← isAtEnd cs then pure ()
    else if (← peek cs) = '\n' then pure ()
    else
      let _ ← advance cs
      skipLine rounds

/-- Skips blanks and comments. -/
def skip : Nat → Reader Unit
  | 0 => outOfRounds
  | rounds + 1 => do
    if ← isAtEnd cs then pure ()
    else
      let c ← peek cs
      if isBlank c then
        let _ ← advance cs
        skip rounds
      else if c = ';' then
        -- the semicolon is not consumed here: the inner loop begins with it
        skipLine cs rounds
        skip rounds
      else pure ()

/-- The string, if its closing quote is there. -/
def closeString (opening : Location) (text : List Char) : Reader Value := do
  if ← isAtEnd cs then report .unterminatedString opening
  else
    let _ ← advance cs
    pure (.string (String.ofList text))

/-- The rest of a string, after the text that has been read. -/
def readStringRest (opening : Location) : Nat → List Char → Reader Value
  | 0, _ => outOfRounds
  | rounds + 1, text => do
    if ← isAtEnd cs then closeString cs opening text
    else
      let c ← peek cs
      if c = '\x22' then closeString cs opening text
      else if c = '\x5c' then
        let _ ← advance cs
        if ← isAtEnd cs then closeString cs opening text
        else
          -- whatever stands behind the backslash is taken, a quote too
          let escaped ← advance cs
          readStringRest opening rounds (text ++ [unescape escaped])
      else
        let c ← advance cs
        readStringRest opening rounds (text ++ [c])

def readString (rounds : Nat) : Reader Value := do
  let opening ← location file
  let _ ← advance cs
  readStringRest cs opening rounds []

/-- The characters of an atom, after those that have been read. -/
def readWord : Nat → List Char → Reader (List Char)
  | 0, _ => outOfRounds
  | rounds + 1, text => do
    if ← isAtEnd cs then pure text
    else if isAtomChar (← peek cs) then
      let c ← advance cs
      readWord rounds (text ++ [c])
    else pure text

def readAtom (rounds : Nat) : Reader Value := do
  let start ← location file
  let text ← readWord cs rounds []
  if text = [] then throw .emptyAtom
  else
    match Reading.ofAtom text with
    | .ok v => pure v
    | .error fault => report fault start

/-- The list, if its closing mark is there. -/
def closeList (elements : List Value) : Reader Value := do
  if ← isAtEnd cs then report .unexpectedEnd (← location file)
  else
    let _ ← advance cs
    pure (.ofList elements)

mutual

/-- The next expression. -/
def readExpr : Nat → Reader Value
  | 0 => outOfRounds
  | rounds + 1 => do
    skip cs rounds
    readDatum rounds

/-- The expression at the position. -/
def readDatum : Nat → Reader Value
  | 0 => outOfRounds
  | rounds + 1 => do
    if ← isAtEnd cs then report .unexpectedEnd (← location file)
    else
      let c ← peek cs
      if c = '(' then
        let _ ← advance cs
        skip cs rounds
        readElements rounds []
      else if c = ')' then report (.unexpectedToken (String.ofList [c])) (← location file)
      else if c = '\x27' then
        let _ ← advance cs
        let datum ← readExpr rounds
        pure (Reading.quoteForm datum)
      else if c = '\x22' then readString cs file rounds
      else readAtom cs file rounds

/-- The list, after the elements that have been read. -/
def readElements : Nat → List Value → Reader Value
  | 0, _ => outOfRounds
  | rounds + 1, elements => do
    if ← isAtEnd cs then closeList cs file elements
    else if (← peek cs) = ')' then closeList cs file elements
    else
      let v ← readExpr rounds
      skip cs rounds
      readElements rounds (elements ++ [v])

end

/-- All expressions, after those that have been read. -/
def readRest : Nat → List Value → Reader (List Value)
  | 0, _ => outOfRounds
  | rounds + 1, finished => do
    if ← isAtEnd cs then pure finished
    else
      let v ← readExpr cs file rounds
      skip cs rounds
      readRest rounds (finished ++ [v])

def readAll (rounds : Nat) : Reader (List Value) := do
  skip cs rounds
  readRest cs file rounds []

def expectEnd (rounds : Nat) : Reader Unit := do
  skip cs rounds
  if ← isAtEnd cs then pure ()
  else
    let c ← peek cs
    report (.unexpectedToken (String.ofList [c])) (← location file)

def readSingle (rounds : Nat) : Reader Value := do
  let v ← readExpr cs file rounds
  expectEnd cs file rounds
  pure v

end

/-- What comes of a new reader. -/
def fromStart {α : Type} (x : Reader α) : Option (Except Stop α) :=
  Option.map (Except.map Prod.fst) (x .start)

/-- Every expression of a source text. -/
def read (rounds : Nat) (source : String) (file : Option String) :
    Option (Except Stop (List Value)) :=
  fromStart (readAll source.toList file rounds)

/-- The only expression of a source text. -/
def readOne (rounds : Nat) (source : String) (file : Option String) : Option (Except Stop Value) :=
  fromStart (readSingle source.toList file rounds)

/-- Whether no more text is needed. Only failures that are reported are looked at. -/
def isComplete (rounds : Nat) (source : String) : Option (Except Stop Bool) := do
  match ← read rounds source none with
  | .ok _ => pure (.ok true)
  | .error (.failure (.read fault _)) => pure (.ok !fault.isIncomplete)
  | .error (.failure _) => pure (.ok true)
  | .error stop => pure (.error stop)

/-! ### One step -/

namespace Cursor

/-- The state of a reader that has gone through a text. -/
def after (earlier : List Char) : Cursor :=
  ⟨earlier.length, (locate earlier none).line, (locate earlier none).column⟩

/-- The state of a reader before the rest of its text. -/
def before (cs rest : List Char) : Cursor :=
  after (cs.take (cs.length - rest.length))

theorem before_append (earlier rest : List Char) :
    before (earlier ++ rest) rest = after earlier := by
  rw [before, List.length_append, Nat.add_sub_cancel, List.take_left]

theorem start_eq_before (cs : List Char) : start = before cs cs := by
  rw [before, Nat.sub_self]
  rfl

/-- The line and the column that are counted are those of the place. -/
theorem next_after (earlier : List Char) (c : Char) :
    (after earlier).next c = after (earlier ++ [c]) := by
  rw [next, after, after, locate, locate, List.count_append, List.reverse_append,
    List.reverse_singleton, List.singleton_append, List.length_append]
  by_cases hc : c = '\n'
  · subst hc
    rfl
  · have hcount : [c].count '\n' = 0 := List.count_eq_zero.2 (by simpa using Ne.symm hc)
    rw [if_neg hc, hcount, List.takeWhile_cons_of_pos (by simpa using hc), unitCount_cons]
    simp only [List.length_singleton, Nat.add_zero, Cursor.mk.injEq, true_and]
    omega

end Cursor

/-- How a reader ends: with a value before the rest of its text, or with a fault that it reports. -/
def ends {α : Type} (cs : List Char) (file : Option String) :
    Except Misread (α × List Char) → Option (Except Stop (α × Cursor))
  | .ok (a, rest) => some (.ok (a, .before cs rest))
  | .error m => some (.error (.failure (m.failure cs file)))

theorem bind_of_ok {α β : Type} {x : Reader α} {s t : Cursor} {a : α}
    (h : x s = some (.ok (a, t))) (f : α → Reader β) : (x >>= f) s = f a t := by
  change (x s >>= fun p => f p.1 p.2 : ExceptT Stop Option (β × Cursor)) = f a t
  rw [h]
  rfl

theorem bind_of_error {α β : Type} {x : Reader α} {s : Cursor} {stop : Stop}
    (h : x s = some (.error stop)) (f : α → Reader β) : (x >>= f) s = some (.error stop) := by
  change (x s >>= fun p => f p.1 p.2 : ExceptT Stop Option (β × Cursor)) = _
  rw [h]
  rfl

variable {cs rest : List Char} {c : Char} {file : Option String}

/-- At the end of the text. -/
theorem ifAtEnd_nil {α : Type} (x y : Reader α) :
    (do if ← isAtEnd cs then x else y : Reader α) (.before cs []) = x (.before cs []) := by
  have hend : cs.length ≤ (Cursor.before cs []).position := by
    rw [Cursor.before, List.length_nil, Nat.sub_zero, List.take_length]
    exact Nat.le_refl _
  have hisAtEnd : isAtEnd cs (.before cs []) = some (.ok (true, .before cs [])) := by
    rw [← decide_eq_true hend]
    rfl
  rw [bind_of_ok hisAtEnd, if_pos rfl]

/-- Where the text goes on. -/
theorem ifAtEnd_cons {α : Type} (h : c :: rest <:+ cs) (x y : Reader α) :
    (do if ← isAtEnd cs then x else y : Reader α) (.before cs (c :: rest))
      = y (.before cs (c :: rest)) := by
  obtain ⟨earlier, rfl⟩ := h
  rw [Cursor.before_append]
  -- the cursor stands before `c`, so it has not passed the whole text
  have hmore : ¬ (earlier ++ c :: rest).length ≤ (Cursor.after earlier).position := by
    refine Nat.not_le.2 ?_
    rw [List.length_append, List.length_cons]
    exact Nat.lt_add_of_pos_right (Nat.succ_pos _)
  have hisAtEnd : isAtEnd (earlier ++ c :: rest) (.after earlier)
      = some (.ok (false, .after earlier)) := by
    rw [← decide_eq_false hmore]
    rfl
  rw [bind_of_ok hisAtEnd, if_neg Bool.false_ne_true]

/-- **What is inspected is in the text**, wherever the text goes on. -/
theorem peek_before (h : c :: rest <:+ cs) :
    peek cs (.before cs (c :: rest)) = some (.ok (c, .before cs (c :: rest))) := by
  obtain ⟨earlier, rfl⟩ := h
  have hchar : (earlier ++ c :: rest)[(Cursor.after earlier).position]? = some c := by
    rw [Cursor.after, List.getElem?_append_right (Nat.le_refl _), Nat.sub_self]
    rfl
  rw [Cursor.before_append, peek, bind_of_ok (rfl : (get : Reader Cursor) _ = some (.ok (_, _))),
    hchar]
  rfl

theorem advance_before (h : c :: rest <:+ cs) :
    advance cs (.before cs (c :: rest)) = some (.ok (c, .before cs rest)) := by
  have hnext : (Cursor.before cs (c :: rest)).next c = .before cs rest := by
    obtain ⟨earlier, rfl⟩ := h
    have hafter := Cursor.before_append (earlier ++ [c]) rest
    rw [← List.append_cons] at hafter
    rw [Cursor.before_append, Cursor.next_after, hafter]
  rw [advance, bind_of_ok (peek_before h), ← hnext]
  rfl

theorem suffix_of_cons (h : c :: rest <:+ cs) : rest <:+ cs :=
  (List.suffix_cons c rest).trans h

/-- The place before the rest of a text. -/
def placeBefore (cs rest : List Char) (file : Option String) : Location :=
  locate (cs.take (cs.length - rest.length)) file

theorem location_before : location file (.before cs rest)
    = some (.ok (placeBefore cs rest file, .before cs rest)) := rfl

theorem report_before {α : Type} (fault : ReadFault) (s : Cursor) :
    (report fault (placeBefore cs rest file) : Reader α) s
      = ends cs file (.error ⟨fault, rest⟩) := rfl

/-! ### The inner loops -/

theorem skipLine_before {rounds : Nat} (h : rest <:+ cs) (hrounds : rest.length < rounds) :
    skipLine cs rounds (.before cs rest)
      = some (.ok ((), .before cs (rest.dropWhile (· ≠ '\n')))) := by
  induction rounds generalizing rest with
  | zero => exact absurd hrounds (Nat.not_lt_zero _)
  | succ rounds ih =>
    cases rest with
    | nil =>
      rw [skipLine, ifAtEnd_nil]
      rfl
    | cons c rest =>
      rw [skipLine, ifAtEnd_cons h, bind_of_ok (peek_before h)]
      by_cases hc : c = '\n'
      · -- the newline is left for the loop around, which skips it as a blank
        rw [if_pos hc, List.dropWhile_cons_of_neg (by simpa using hc)]
        rfl
      · rw [if_neg hc, bind_of_ok (advance_before h),
          ih (suffix_of_cons h) (Nat.lt_of_succ_lt_succ hrounds),
          List.dropWhile_cons_of_pos (by simpa using hc)]

/-- The text is empty or begins with a word. -/
def Begins (rest : List Char) : Prop :=
  ∀ c ∈ rest.head?, isBlank c = false ∧ c ≠ ';'

/-- **Skipping comes to an end**, where the next word begins. -/
theorem exists_skip (rounds : Nat) (h : rest <:+ cs) (hrounds : 2 * rest.length < rounds) :
    ∃ after, after <:+ rest ∧ Begins after ∧ tokenize after = tokenize rest
      ∧ skip cs rounds (.before cs rest) = some (.ok ((), .before cs after)) := by
  -- Each character costs at most two rounds: one of the outer loop, and the inner one runs on the
  -- rounds that are left. The induction is on the rounds, for a comment skips many characters in
  -- one.
  induction rounds generalizing rest with
  | zero => exact absurd hrounds (Nat.not_lt_zero _)
  | succ rounds ih =>
    cases rest with
    | nil =>
      refine ⟨[], List.suffix_rfl, nofun, rfl, ?_⟩
      rw [skip, ifAtEnd_nil]
      rfl
    | cons c rest =>
      rw [skip, ifAtEnd_cons h, bind_of_ok (peek_before h)]
      rw [List.length_cons] at hrounds
      have hrest := suffix_of_cons h
      by_cases hblank : isBlank c = true
      · obtain ⟨after, hafter, hbegins, htokens, hskip⟩ := ih hrest (by omega)
        rw [if_pos hblank, bind_of_ok (advance_before h)]
        exact ⟨after, hafter.trans (List.suffix_cons c rest), hbegins,
          htokens.trans (tokenize_blank hblank rest).symm, hskip⟩
      · rw [if_neg hblank]
        by_cases hc : c = ';'
        · subst hc
          have hline := List.dropWhile_suffix (l := rest) (· ≠ '\n')
          have hshorter := hline.length_le
          obtain ⟨after, hafter, hbegins, htokens, hskip⟩ := ih (hline.trans hrest) (by omega)
          -- the semicolon itself is left to the inner loop
          have hcomment : skipLine cs rounds (.before cs (';' :: rest))
              = some (.ok ((), .before cs (rest.dropWhile (· ≠ '\n')))) :=
            skipLine_before h (by rw [List.length_cons]; omega)
          rw [if_pos rfl, bind_of_ok hcomment]
          exact ⟨after, (hafter.trans hline).trans (List.suffix_cons _ rest), hbegins,
            htokens.trans (tokenize_comment rest).symm, hskip⟩
        · rw [if_neg hc]
          refine ⟨c :: rest, List.suffix_rfl, fun d hd => ?_, rfl, rfl⟩
          cases hd
          -- here the loop stops, at a character with which a token begins
          exact ⟨Bool.eq_false_of_not_eq_true hblank, hc⟩

/-- How a string ends of which some text has been read: with more text after it, or with a fault if
it is never closed. -/
def stringOutcome (opening text : List Char) :
    Option (List Char × List Char) → Except Misread (Value × List Char)
  | some (more, after) => .ok (.string (String.ofList (text ++ more)), after)
  | none => .error ⟨.unterminatedString, opening⟩

theorem stringOutcome_map (opening text : List Char) (c : Char)
    (scan : Option (List Char × List Char)) :
    stringOutcome opening text (scan.map fun p => (c :: p.1, p.2))
      = stringOutcome opening (text ++ [c]) scan := by
  cases scan with
  | none => rfl
  | some p =>
    rw [Option.map_some, stringOutcome, stringOutcome, List.append_assoc, List.singleton_append]

theorem closeString_nil (opening text : List Char) :
    closeString cs (placeBefore cs opening file) text (.before cs [])
      = ends cs file (stringOutcome opening text none) := by
  rw [closeString, ifAtEnd_nil]
  rfl

theorem closeString_quote (h : '\x22' :: rest <:+ cs) (opening : Location) (text : List Char) :
    closeString cs opening text (.before cs ('\x22' :: rest))
      = some (.ok (.string (String.ofList text), .before cs rest)) := by
  rw [closeString, ifAtEnd_cons h, bind_of_ok (advance_before h)]
  rfl

/-- **The loop over a string** comes to the end that scanning the text has. -/
theorem readStringRest_before {rounds : Nat} (h : rest <:+ cs) (hrounds : rest.length < rounds)
    (opening text : List Char) :
    readStringRest cs (placeBefore cs opening file) rounds text (.before cs rest)
      = ends cs file (stringOutcome opening text (scanString rest)) := by
  obtain ⟨rounds, rfl⟩ := Nat.exists_eq_add_one_of_ne_zero (Nat.ne_zero_of_lt hrounds)
  -- the cases are those of the scanner: end, quote, escape, any other character
  induction rest using scanString.induct generalizing rounds text with
  | case1 =>
    rw [readStringRest, ifAtEnd_nil, closeString_nil]
    rfl
  | case2 rest =>
    rw [readStringRest, ifAtEnd_cons h, bind_of_ok (peek_before h), if_pos rfl, closeString_quote h,
      scanString, stringOutcome, List.append_nil]
    rfl
  | case3 c rest ih =>
    have hrest := suffix_of_cons h
    rw [List.length_cons, List.length_cons] at hrounds
    obtain ⟨rounds, rfl⟩ := Nat.exists_eq_add_one_of_ne_zero (by omega : rounds ≠ 0)
    rw [readStringRest, ifAtEnd_cons h, bind_of_ok (peek_before h), if_neg (by decide), if_pos rfl,
      bind_of_ok (advance_before h), ifAtEnd_cons hrest, bind_of_ok (advance_before hrest),
      ih (suffix_of_cons hrest) _ rounds (by omega), scanString, stringOutcome_map]
  | case4 c rest hquote hescape ih =>
    have hrest := suffix_of_cons h
    rw [List.length_cons] at hrounds
    rw [readStringRest, ifAtEnd_cons h, bind_of_ok (peek_before h), if_neg hquote]
    rcases plain_or_dangling hescape with hplain | ⟨rfl, rfl⟩
    · obtain ⟨rounds, rfl⟩ := Nat.exists_eq_add_one_of_ne_zero (by omega : rounds ≠ 0)
      rw [if_neg hplain, bind_of_ok (advance_before h), ih hrest _ rounds (by omega),
        scanString_plain hquote hplain, stringOutcome_map]
    · -- the text ends after the backslash
      rw [if_pos rfl, bind_of_ok (advance_before h), ifAtEnd_nil, closeString_nil]
      rfl

theorem readString_before {rounds : Nat} (h : '\x22' :: rest <:+ cs)
    (hrounds : rest.length < rounds) :
    readString cs file rounds (.before cs ('\x22' :: rest))
      = ends cs file (stringOutcome ('\x22' :: rest) [] (scanString rest)) := by
  rw [readString, bind_of_ok location_before, bind_of_ok (advance_before h),
    readStringRest_before (suffix_of_cons h) hrounds]

/-- **The loop over an atom** takes the characters that an atom can have. -/
theorem readWord_before {rounds : Nat} (h : rest <:+ cs) (hrounds : rest.length < rounds)
    (text : List Char) :
    readWord cs rounds text (.before cs rest) = some (.ok (text ++ rest.takeWhile isAtomChar,
      .before cs (rest.dropWhile isAtomChar))) := by
  induction rounds generalizing rest text with
  | zero => exact absurd hrounds (Nat.not_lt_zero _)
  | succ rounds ih =>
    cases rest with
    | nil =>
      rw [readWord, ifAtEnd_nil, List.takeWhile_nil, List.append_nil]
      rfl
    | cons c rest =>
      rw [readWord, ifAtEnd_cons h, bind_of_ok (peek_before h)]
      by_cases hc : isAtomChar c = true
      · rw [if_pos hc, bind_of_ok (advance_before h),
          ih (suffix_of_cons h) (Nat.lt_of_succ_lt_succ hrounds), List.takeWhile_cons_of_pos hc,
          List.dropWhile_cons_of_pos hc, List.append_assoc, List.singleton_append]
      · -- the word ends before this character, which is not consumed
        rw [if_neg hc, List.takeWhile_cons_of_neg hc, List.dropWhile_cons_of_neg hc,
          List.append_nil]
        rfl

/-- How an atom ends, told by what its characters are: with a value before the text after them, or
with a fault where it begins. -/
def atomOutcome (start after : List Char) :
    Except ReadFault Value → Except Misread (Value × List Char)
  | .ok v => .ok (v, after)
  | .error fault => .error ⟨fault, start⟩

/-- **An atom is not empty** where one is read, at a character that it can have. -/
theorem readAtom_before {rounds : Nat} (h : c :: rest <:+ cs) (hc : isAtomChar c = true)
    (hrounds : (c :: rest).length < rounds) :
    readAtom cs file rounds (.before cs (c :: rest))
      = ends cs file (atomOutcome (c :: rest) (rest.dropWhile isAtomChar)
          (Reading.ofAtom (c :: rest.takeWhile isAtomChar))) := by
  rw [readAtom, bind_of_ok location_before, bind_of_ok (readWord_before h hrounds []),
    List.nil_append, List.takeWhile_cons_of_pos hc, List.dropWhile_cons_of_pos hc,
    if_neg (List.cons_ne_nil _ _)]
  cases Reading.ofAtom (c :: rest.takeWhile isAtomChar) <;> rfl

end SmallLisp.Source.Descent
