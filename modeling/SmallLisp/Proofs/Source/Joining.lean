import Mathlib.Data.List.Permutation
import SmallLisp.Proofs.Source.Grammar
import SmallLisp.Proofs.Source.Lines

/-!
# Reading one text after the other

A text that can be read as a whole leaves nothing open: no list, no quote and, once a line feed
follows, no comment and no atom. Whatever comes on the next line is therefore read as if it stood
alone, with the expressions of the first text before its own and all places moved down by the lines
of the first text (`readAll_append_line`, `read_append_eq`). This is what lets a program be run in
pieces.

The lexemes of the two texts are those of one after those of the other (`tokenize_append_line`).
What was finished before a reading begins plays no part in it (`run_onto`), and the place of a fault
counts from the start of the text only in its line (`locate_append_line`).
-/

namespace SmallLisp

/-- The place so many lines further down. -/
def Location.down (lines : Nat) (l : Location) : Location :=
  { l with line := l.line + lines }

/-- The failure so many lines further down, if it has a place. -/
def Failure.down (lines : Nat) : Failure → Failure
  | .read fault location => .read fault (location.map (Location.down lines))
  | failure => failure

namespace Source

variable {cs more : List Char}

/-! ### Lexemes -/

/-- A lexeme begins where it stands in the text. -/
theorem start_suffix {l : Lexeme} (h : l ∈ tokenize cs) : l.start <:+ cs := by
  induction cs using textInduction with
  | nil =>
    rw [tokenize_nil] at h
    cases h
  | blank c rest hblank ih =>
    rw [tokenize_blank hblank] at h
    exact (ih h).trans (List.suffix_cons c rest)
  | comment rest ih =>
    rw [tokenize_comment] at h
    exact ((ih h).trans (List.dropWhile_suffix _)).trans (List.suffix_cons _ rest)
  | opening rest ih =>
    rw [tokenize_opening] at h
    rcases List.mem_cons.1 h with rfl | h
    · exact List.suffix_rfl
    · exact (ih h).trans (List.suffix_cons _ rest)
  | closing rest ih =>
    rw [tokenize_closing] at h
    rcases List.mem_cons.1 h with rfl | h
    · exact List.suffix_rfl
    · exact (ih h).trans (List.suffix_cons _ rest)
  | quoteMark rest ih =>
    rw [tokenize_quoteMark] at h
    rcases List.mem_cons.1 h with rfl | h
    · exact List.suffix_rfl
    · exact (ih h).trans (List.suffix_cons _ rest)
  | openString rest hscan =>
    rw [tokenize_openString hscan] at h
    obtain rfl := List.mem_singleton.1 h
    exact List.suffix_rfl
  | string rest text after hscan ih =>
    rw [tokenize_string hscan] at h
    obtain ⟨body, -, rfl⟩ := scanString_eq_some_iff.1 hscan
    -- the rest behind a string is a suffix of what follows its opening quote
    have hafter : after <:+ body ++ '\x22' :: after :=
      (List.suffix_cons _ after).trans (List.suffix_append body _)
    rcases List.mem_cons.1 h with rfl | h
    · exact List.suffix_rfl
    · exact ((ih h).trans hafter).trans (List.suffix_cons _ _)
  | atom c rest hc ih =>
    rw [tokenize_atom hc] at h
    rcases List.mem_cons.1 h with rfl | h
    · exact List.suffix_rfl
    · exact ((ih h).trans (List.dropWhile_suffix _)).trans (List.suffix_cons c rest)

/-- A text that is read leaves no string open. -/
theorem openString_notMem_of_readAll {vs : List Value} (h : readAll cs = .ok vs) :
    Token.openString ∉ (tokenize cs).map Lexeme.token :=
  openString_notMem_of_run (readAll_eq_ok_iff.1 h)

/-- After a text that is read, the next line begins with new lexemes. -/
theorem tokenize_append_line {vs : List Value} (h : readAll cs = .ok vs) (more : List Char) :
    tokenize (cs ++ '\n' :: more)
      = (tokenize cs).map (Lexeme.extend ('\n' :: more)) ++ tokenize more := by
  obtain ⟨closed, rest, hopen⟩ := exists_leavesOpen cs
  rcases hopen.rest_eq with rfl | ⟨body, rfl, hscan⟩
  · have hclosed : tokenize cs = closed := by
      rw [hopen.tokenize_eq, tokenize_nil, List.append_nil]
    rw [hopen.tokenize_append, List.nil_append, tokenize_blank Text.isBlank_newline, hclosed]
  · have hnot := openString_notMem_of_readAll h
    rw [hopen.tokenize_eq, tokenize_openString hscan, List.map_append] at hnot
    exact absurd (List.mem_append_right _ List.mem_cons_self) hnot

/-! ### Readings -/

/-- The reading with more expressions finished before it. -/
def Reading.onto (finished : List Value) (r : Reading) : Reading :=
  ⟨r.finished ++ finished, r.pending⟩

theorem place_onto (finished before : List Value) (datum : Value) (pending : List Pending) :
    Reading.place (before ++ finished) datum pending
      = (Reading.place before datum pending).onto finished := by
  induction pending generalizing datum with
  | nil => rfl
  | cons first pending ih =>
    cases first with
    | quoted => exact ih (Reading.quoteForm datum)
    | items reversed => rfl

theorem step_onto (finished : List Value) (r : Reading) (token : Token) :
    (r.onto finished).step token = (r.step token).map (Reading.onto finished) := by
  cases token with
  | opening => rfl
  | quoteMark => rfl
  | openString => rfl
  | string text => exact congrArg Except.ok (place_onto finished r.finished _ r.pending)
  -- a closing parenthesis puts its list in place only if a list is open
  | closing =>
    obtain ⟨before, pending⟩ := r
    cases pending with
    | nil => rfl
    | cons first pending =>
      cases first with
      | quoted => rfl
      | items reversed => exact congrArg Except.ok (place_onto finished before _ pending)
  | atom text =>
    rw [Reading.step, Reading.step]
    cases Reading.ofAtom text with
    | ok datum => exact congrArg Except.ok (place_onto finished r.finished datum r.pending)
    | error fault => rfl

/-- What was finished before plays no part in a reading. -/
theorem run_onto (finished : List Value) (r : Reading) (ls : List Lexeme) :
    run (r.onto finished) ls = (run r ls).map (Reading.onto finished) := by
  induction ls generalizing r with
  | nil => rfl
  | cons l ls ih =>
    rw [run, run, step_onto]
    cases r.step l.token with
    | ok next => exact ih next
    | error fault => rfl

/-- If the reading of a text is that of another one onto finished expressions, then the text holds
these and the expressions of the other one. -/
theorem readAll_eq_of_run_onto {finished : List Value} {ds : List Char}
    (hrun : run .start (tokenize ds) = (run .start (tokenize cs)).map (Reading.onto finished)) :
    readAll ds = (readAll cs).map (finished.reverse ++ ·) := by
  rw [readAll, hrun, readAll]
  cases run .start (tokenize cs) with
  | error misread => rfl
  | ok r =>
    obtain ⟨more, pending⟩ := r
    cases pending with
    | nil => exact congrArg Except.ok List.reverse_append
    | cons first pending => rfl

/-- **Reading distributes over lines**: the expressions of the first text and then those of the
second, which fails, if it fails, as it does alone. -/
theorem readAll_append_line {vs : List Value} (h : readAll cs = .ok vs) (more : List Char) :
    readAll (cs ++ '\n' :: more) = (readAll more).map (vs ++ ·) := by
  -- the first text leaves nothing open, only its values
  have hfirst : run .start (tokenize cs) = .ok (Reading.start.onto vs.reverse) :=
    run_eq_ok_iff.2 (readAll_eq_ok_iff.1 h)
  have hrun : run .start (tokenize (cs ++ '\n' :: more))
      = (run .start (tokenize more)).map (Reading.onto vs.reverse) := by
    calc run .start (tokenize (cs ++ '\n' :: more))
        = ((run .start (tokenize cs)).mapError (Misread.extend ('\n' :: more))).bind
            fun next => run next (tokenize more) := by
          rw [tokenize_append_line h, run_append, run_map_extend]
      _ = run (Reading.start.onto vs.reverse) (tokenize more) := by
          rw [hfirst]
          rfl
      _ = (run .start (tokenize more)).map (Reading.onto vs.reverse) := run_onto _ _ _
  have hread := readAll_eq_of_run_onto hrun
  rwa [List.reverse_reverse] at hread

/-! ### Places -/

/-- What remains at a fault is the end of the text. -/
theorem rest_suffix_of_run {r : Reading} {ls : List Lexeme} {m : Misread}
    (hls : ∀ l ∈ ls, l.start <:+ cs) (h : run r ls = .error m) : m.rest <:+ cs := by
  induction ls generalizing r with
  | nil => cases h
  | cons l ls ih =>
    obtain ⟨hl, hls⟩ := List.forall_mem_cons.1 hls
    rw [run] at h
    split at h
    · exact ih hls h
    · cases h
      exact hl

theorem rest_suffix {m : Misread} (h : readAll cs = .error m) : m.rest <:+ cs := by
  rw [readAll] at h
  split at h
  · cases h
  · cases h
    exact List.nil_suffix
  · next misread hrun =>
    cases h
    exact rest_suffix_of_run (fun l hl => start_suffix hl) hrun

/-- The column counts from the last line feed. -/
theorem locate_append_line (cs before : List Char) (file : Option String) :
    locate (cs ++ '\n' :: before) file = (locate before file).down (cs.count '\n' + 1) := by
  have hline : (cs ++ '\n' :: before).count '\n' + 1
      = before.count '\n' + 1 + (cs.count '\n' + 1) := by
    rw [List.count_append, List.count_cons_self]
    omega
  have hcolumn : (cs ++ '\n' :: before).reverse.takeWhile (· ≠ '\n')
      = before.reverse.takeWhile (· ≠ '\n') := by
    rw [List.reverse_append, List.reverse_cons, List.append_assoc]
    exact takeWhile_append_stop (by simp) before.reverse cs.reverse
  rw [locate, locate, hline, hcolumn]
  rfl

/-- A fault of the second text is found as many lines further down as the first text has. -/
theorem failure_append_line {m : Misread} (h : m.rest <:+ more) (cs : List Char)
    (file : Option String) :
    m.failure (cs ++ '\n' :: more) file = (m.failure more file).down (cs.count '\n' + 1) := by
  obtain ⟨before, rfl⟩ := h
  -- how much of a text stands before the failure, measured from its end
  have hmore : (before ++ m.rest).length - m.rest.length = before.length := by
    rw [List.length_append, Nat.add_sub_cancel]
  have hall : (cs ++ '\n' :: (before ++ m.rest)).length - m.rest.length
      = (cs ++ '\n' :: before).length := by
    rw [List.length_append, List.length_append, List.length_cons, List.length_cons,
      List.length_append]
    omega
  -- before the failure stands the first text, a newline and what stood before it
  have htake : (cs ++ '\n' :: (before ++ m.rest)).take (cs ++ '\n' :: before).length
      = cs ++ '\n' :: before := by
    rw [show cs ++ '\n' :: (before ++ m.rest) = cs ++ '\n' :: before ++ m.rest by
      rw [List.append_assoc, List.cons_append], List.take_left]
  rw [Misread.failure, Misread.failure, hmore, hall, htake, List.take_left, locate_append_line]
  rfl

/-! ### Sources -/

/-- Reading a text and then another one below it. -/
theorem read_append_eq {a : String} {file : Option String} {vs : List Value}
    (h : read a file = .ok vs) (b : String) :
    read (a ++ "\n" ++ b) file
      = ((read b file).map (vs ++ ·)).mapError (Failure.down (a.toList.count '\n' + 1)) := by
  -- the file plays no part in a success
  have ha : readAll a.toList = .ok vs := by
    cases hall : readAll a.toList with
    | ok ws =>
      rw [read_of_readAll hall] at h
      cases h
      rfl
    | error m =>
      rw [read_of_readAll_error hall] at h
      cases h
  rw [read, toList_append_line, readAll_append_line ha, read]
  cases hall : readAll b.toList with
  | ok ws => rfl
  | error m => exact congrArg Except.error (failure_append_line (rest_suffix hall) _ _)

/-- **Reading distributes over lines.** Below a text that can be read, a text is read as if it stood
alone: its expressions come after those of the first one, and if it fails, it fails with the same
fault, so with the same code and message, in the same column and as many lines further down as the
first text has. -/
theorem read_append_line (a b : String) (file : Option String) (vs : List Value)
    (h : read a file = .ok vs) :
    (∀ ws, read b file = .ok ws → read (a ++ "\n" ++ b) file = .ok (vs ++ ws)) ∧
    (∀ failure, read b file = .error failure → ∃ fault line column,
      failure = .read fault (some ⟨line, column, file⟩) ∧
        read (a ++ "\n" ++ b) file
          = .error (.read fault (some ⟨line + 1 + a.toList.count '\n', column, file⟩))) := by
  constructor
  · intro ws hb
    rw [read_append_eq h, hb]
    rfl
  · intro failure hb
    cases hall : readAll b.toList with
    | ok ws =>
      rw [read_of_readAll hall] at hb
      cases hb
    | error m =>
      rw [read_of_readAll_error hall] at hb
      cases hb
      refine ⟨m.fault, _, _, rfl, ?_⟩
      rw [read_append_eq h, read_of_readAll_error hall, Nat.add_assoc, Nat.add_comm 1]
      rfl

/-- The first text ends inside a comment, and the second one has a mark too many. -/
theorem read_append_line_comment :
    read "(a)\n; note" none = .ok [.ofList [.symbol "a"]] ∧
      ∃ fault line column,
        Failure.read (.unexpectedToken ")") (some ⟨1, 3, none⟩)
            = .read fault (some ⟨line, column, none⟩) ∧
          read ("(a)\n; note" ++ "\n" ++ "b )") none
            = .error (.read fault
                (some ⟨line + 1 + "(a)\n; note".toList.count '\n', column, none⟩)) := by
  have hfirst : read "(a)\n; note" none = .ok [.ofList [.symbol "a"]] := by cbv
  have hsecond : read "b )" none
      = .error (.read (.unexpectedToken ")") (some ⟨1, 3, none⟩)) := by cbv
  exact ⟨hfirst, (read_append_line _ _ none _ hfirst).2 _ hsecond⟩

end Source

end SmallLisp
