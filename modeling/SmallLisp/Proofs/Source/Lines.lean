import SmallLisp.Proofs.Source.Lexemes
import SmallLisp.Proofs.Traversal
import SmallLisp.Repl

/-!
# Reading line by line

A reader that gets its text one line after the other has to decide after each line whether to wait
for the next one. `isComplete` decides it right in both directions (`isComplete_exact`): what it
calls incomplete cannot be read, but one more line mends it; what it calls complete is read, or
fails in a way that no further text changes, neither the fault nor its place. The loop therefore
never waits in vain and never gives up too early.

Both directions rest on what a line feed leaves open, which is at most a string
(`exists_leavesOpen`). If the closed lexemes before it cannot be read, then that failure is final,
since the lexemes of the longer text begin with the same ones. If they can be read, then a quote
ends the open string, or two quotes make an empty one in which every waiting quote mark finds its
datum, and after that only closing marks are missing, one for each open list.
-/

namespace SmallLisp

namespace Source

/-! ### Readings of longer texts -/

/-- The same fault at the same place of a text that goes on. -/
def Misread.extend (more : List Char) (m : Misread) : Misread :=
  { m with rest := m.rest ++ more }

theorem Misread.failure_extend (m : Misread) (cs more : List Char) (file : Option String) :
    (m.extend more).failure (cs ++ more) file = m.failure cs file := by
  have hlength : (cs ++ more).length - (m.rest ++ more).length = cs.length - m.rest.length := by
    rw [List.length_append, List.length_append, Nat.add_sub_add_right]
  have hbefore : (cs ++ more).take (cs.length - m.rest.length)
      = cs.take (cs.length - m.rest.length) :=
    List.take_append_of_le_length (Nat.sub_le _ _)
  rw [Misread.failure, Misread.failure, Misread.extend, hlength, hbefore]

theorem run_append (r : Reading) (ls more : List Lexeme) :
    run r (ls ++ more) = (run r ls).bind fun next => run next more := by
  induction ls generalizing r with
  | nil => rfl
  | cons l ls ih =>
    rw [List.cons_append, run, run]
    cases r.step l.token with
    | ok next => exact ih next
    | error fault => rfl

/-- What follows a lexeme matters only to where a fault is found. -/
theorem run_map_extend (r : Reading) (more : List Char) (ls : List Lexeme) :
    run r (ls.map (Lexeme.extend more)) = (run r ls).mapError (Misread.extend more) := by
  induction ls generalizing r with
  | nil => rfl
  | cons l ls ih =>
    rw [List.map_cons, run, run, Lexeme.token_extend]
    cases r.step l.token with
    | ok next => exact ih next
    | error fault => rfl

/-- Closed lexemes are never read as a text that stops too early. -/
theorem not_isIncomplete_of_step {r : Reading} {token : Token} {fault : ReadFault}
    (hclosed : token ≠ .openString) (h : r.step token = .error fault) :
    fault.isIncomplete = false := by
  cases token with
  | opening => cases h
  | quoteMark => cases h
  | string text => cases h
  | openString => exact absurd rfl hclosed
  -- a closing parenthesis too many and a literal without a value stay wrong with more text
  | closing =>
    rw [Reading.step] at h
    split at h
    · cases h
    · cases h
      rfl
  | atom text =>
    rw [Reading.step, Reading.ofAtom] at h
    split at h
    · split at h
      · cases h
      · split at h
        · cases h
        · cases h
          rfl
    · split at h
      · cases h
      · cases h

theorem not_isIncomplete_of_run {r : Reading} {ls : List Lexeme} {m : Misread}
    (hclosed : ∀ l ∈ ls, l.token ≠ .openString) (h : run r ls = .error m) :
    m.fault.isIncomplete = false := by
  induction ls generalizing r with
  | nil => cases h
  | cons l ls ih =>
    obtain ⟨hl, hls⟩ := List.forall_mem_cons.1 hclosed
    rw [run] at h
    split at h
    · exact ih hls h
    · next fault hstep =>
      cases h
      exact not_isIncomplete_of_step hl hstep

/-! ### Completing a reading -/

/-- A text of closing marks. -/
def closers (count : Nat) : List Char :=
  List.replicate count ')'

/-- After a datum only closing marks are missing, one for each open list, whatever was read so
far. -/
theorem exists_closers (pending : List Pending) : ∃ count, ∀ finished datum, ∃ vs,
    run (.place finished datum pending) (tokenize (closers count)) = .ok ⟨vs, []⟩ := by
  induction pending with
  | nil =>
    refine ⟨0, fun finished datum => ⟨datum :: finished, ?_⟩⟩
    rw [closers, List.replicate_zero, tokenize_nil]
    rfl
  | cons first pending ih =>
    obtain ⟨count, hcount⟩ := ih
    cases first with
    | quoted => exact ⟨count, fun finished datum => hcount finished (Reading.quoteForm datum)⟩
    -- one parenthesis for each open list; a quotation is complete with its datum
    | items reversed =>
      refine ⟨count + 1, fun finished datum => ?_⟩
      obtain ⟨vs, hrun⟩ := hcount finished (.ofList (datum :: reversed).reverse)
      rw [closers, List.replicate_succ, tokenize_closing]
      exact ⟨vs, hrun⟩

section LeavesOpen

variable {cs rest : List Char} {closed : List Lexeme}

/-- One quote or two, so that whatever is open on the next line after them is no string. -/
theorem LeavesOpen.exists_quotes (h : LeavesOpen cs closed rest) :
    ∃ quotes, '\n' ∉ quotes ∧ ∀ more, ∃ text start,
      tokenize (rest ++ '\n' :: (quotes ++ more)) = ⟨.string text, start⟩ :: tokenize more := by
  rcases h.rest_eq with rfl | ⟨body, rfl, hscan⟩
  · refine ⟨['\x22', '\x22'], by decide, fun more => ⟨[], '\x22' :: '\x22' :: more, ?_⟩⟩
    rw [List.nil_append, tokenize_blank (by decide)]
    exact tokenize_string rfl
  · refine ⟨['\x22'], by decide, fun more => ?_⟩
    obtain ⟨text, htext⟩ := exists_scanString_close hscan more
    exact ⟨text, _, tokenize_string htext⟩

/-- If the closed lexemes can be read, then one more line makes the text one that can be read. -/
theorem LeavesOpen.exists_completion (h : LeavesOpen cs closed rest) {r : Reading}
    (hclosed : run .start closed = .ok r) :
    ∃ line vs, '\n' ∉ line ∧ readAll (cs ++ '\n' :: line) = .ok vs := by
  -- the quotes make a string of what is open, and what is pending after it are lists
  obtain ⟨quotes, hquotes, hstring⟩ := h.exists_quotes
  obtain ⟨count, hcount⟩ := exists_closers r.pending
  obtain ⟨text, start, htokenize⟩ := hstring (closers count)
  obtain ⟨vs, hvs⟩ := hcount r.finished (.string (String.ofList text))
  have hclosers : '\n' ∉ closers count := by
    intro hmem
    exact absurd (List.eq_of_mem_replicate hmem) (by decide)
  have hrun : run .start (tokenize (cs ++ '\n' :: (quotes ++ closers count))) = .ok ⟨vs, []⟩ := by
    rw [h.tokenize_append, htokenize, run_append, run_map_extend, hclosed]
    exact hvs
  refine ⟨quotes ++ closers count, vs.reverse, ?_, ?_⟩
  · exact List.not_mem_append hquotes hclosers
  · rw [readAll, hrun]

/-- A failure to read the closed lexemes is final. -/
theorem LeavesOpen.readAll_append (h : LeavesOpen cs closed rest) {m : Misread}
    (hclosed : run .start closed = .error m) (more : List Char) :
    readAll (cs ++ '\n' :: more) = .error (m.extend ('\n' :: more)) := by
  have hrun : run .start (tokenize (cs ++ '\n' :: more)) = .error (m.extend ('\n' :: more)) := by
    rw [h.tokenize_append, run_append, run_map_extend, hclosed]
    rfl
  rw [readAll, hrun]

/-- A text is complete if its closed lexemes cannot be read: then more text is of no use. -/
theorem LeavesOpen.isComplete_of_error (h : LeavesOpen cs closed rest) {m : Misread}
    (hclosed : run .start closed = .error m) : readAll cs = .error m ∧ isComplete cs = true := by
  have hread : readAll cs = .error m := by
    rw [readAll, h.tokenize_eq, run_append, hclosed]
    rfl
  have hfault : m.fault.isIncomplete = false := not_isIncomplete_of_run h.closed_ne hclosed
  have hcomplete : isComplete cs = !m.fault.isIncomplete := by
    rw [isComplete, hread]
  rw [hcomplete, hfault]
  exact ⟨hread, rfl⟩

/-- If they can be read, the text is complete only if it can be read as a whole. -/
theorem LeavesOpen.exists_readAll (h : LeavesOpen cs closed rest) {r : Reading}
    (hclosed : run .start closed = .ok r) (hcomplete : isComplete cs = true) :
    ∃ vs, readAll cs = .ok vs := by
  have hrun : run .start (tokenize cs) = run r (tokenize rest) := by
    rw [h.tokenize_eq, run_append, hclosed]
    rfl
  cases hread : readAll cs with
  | ok vs => exact ⟨vs, rfl⟩
  | error m =>
    exfalso
    rw [isComplete, hread] at hcomplete
    rw [readAll, hrun] at hread
    -- lists and quotes that are open, and strings that are, are faults that more text can mend
    rcases h.rest_eq with rfl | ⟨body, rfl, hscan⟩
    · rw [tokenize_nil, run] at hread
      split at hread
      · cases hread
      · cases hread
        cases hcomplete
      · next heq => cases heq
    · rw [tokenize_openString hscan] at hread
      cases hread
      cases hcomplete

end LeavesOpen

/-! ### Incomplete texts can be mended, complete ones cannot -/

variable {cs : List Char}

theorem exists_error_of_isComplete_eq_false (h : isComplete cs = false) :
    ∃ m, readAll cs = .error m := by
  rw [isComplete] at h
  split at h
  · cases h
  · next m heq => exact ⟨m, heq⟩

theorem exists_line_of_isComplete_eq_false (h : isComplete cs = false) :
    ∃ line vs, '\n' ∉ line ∧ readAll (cs ++ '\n' :: line) = .ok vs := by
  obtain ⟨closed, rest, hopen⟩ := exists_leavesOpen cs
  cases hclosed : run .start closed with
  | ok r => exact hopen.exists_completion hclosed
  | error m =>
    rw [(hopen.isComplete_of_error hclosed).2] at h
    cases h

theorem readAll_append_of_isComplete (h : isComplete cs = true) {m : Misread}
    (hread : readAll cs = .error m) (more : List Char) :
    readAll (cs ++ '\n' :: more) = .error (m.extend ('\n' :: more)) := by
  obtain ⟨closed, rest, hopen⟩ := exists_leavesOpen cs
  cases hclosed : run .start closed with
  -- the text leaves nothing open and could be read
  | ok r =>
    obtain ⟨vs, hvs⟩ := hopen.exists_readAll hclosed h
    rw [hvs] at hread
    cases hread
  | error m' =>
    -- the failure is in the part that the rest does not reach
    rw [(hopen.isComplete_of_error hclosed).1] at hread
    cases hread
    exact hopen.readAll_append hclosed more

/-! ### The same for sources -/

variable {source : String}

theorem toList_append_line (source line : String) :
    (source ++ "\n" ++ line).toList = source.toList ++ '\n' :: line.toList := by
  rw [String.toList_append, String.toList_append, List.append_assoc]
  rfl

theorem read_of_readAll {vs : List Value} (h : readAll source.toList = .ok vs)
    (file : Option String) : read source file = .ok vs := by
  rw [read, h]
  rfl

theorem isComplete_of_read {vs : List Value} {file : Option String}
    (h : read source file = .ok vs) : isComplete source.toList = true := by
  cases hall : readAll source.toList with
  | ok ws => rw [isComplete, hall]
  | error m =>
    rw [read, hall] at h
    cases h

theorem read_of_readAll_error {m : Misread} (h : readAll source.toList = .error m)
    (file : Option String) : read source file = .error (m.failure source.toList file) := by
  rw [read, h]
  rfl

/-- A source that needs more text cannot be read, but it can with one more line. -/
theorem mendable_of_isComplete_eq_false (h : isComplete source.toList = false)
    (file : Option String) : (∃ failure, read source file = .error failure) ∧
      ∃ line vs, '\n' ∉ line.toList ∧ read (source ++ "\n" ++ line) file = .ok vs := by
  obtain ⟨m, hm⟩ := exists_error_of_isComplete_eq_false h
  obtain ⟨line, vs, hline, hvs⟩ := exists_line_of_isComplete_eq_false h
  refine ⟨⟨_, read_of_readAll_error hm file⟩, String.ofList line, vs, ?_, ?_⟩
  · rwa [String.toList_ofList]
  · refine read_of_readAll ?_ file
    rwa [toList_append_line, String.toList_ofList]

/-- A source that needs no more text and cannot be read never can, and fails in the same way at the
same place. -/
theorem final_of_isComplete (h : isComplete source.toList = true) {file : Option String}
    {failure : Failure} (hread : read source file = .error failure) (more : String) :
    read (source ++ "\n" ++ more) file = .error failure := by
  cases hall : readAll source.toList with
  | ok vs =>
    rw [read_of_readAll hall] at hread
    cases hread
  | error m =>
    rw [read_of_readAll_error hall] at hread
    cases hread
    have hmore := readAll_append_of_isComplete h hall more.toList
    rw [← toList_append_line] at hmore
    rw [read_of_readAll_error hmore, toList_append_line, Misread.failure_extend]

end Source

/-! ### The loop -/

namespace Repl

open Source (isComplete read)

/-- What waits between two lines: nothing, or a text that needs more. -/
def Waits (pending : String) : Prop :=
  pending = "" ∨ isComplete pending.toList = false

theorem offer_of_isComplete {pending line : String}
    (h : isComplete (join pending line).toList = true) :
    offer pending line = (some (join pending line), "") := by
  rw [offer]
  exact if_pos h

theorem offer_of_isComplete_eq_false {pending line : String}
    (h : isComplete (join pending line).toList = false) :
    offer pending line = (none, join pending line) := by
  rw [offer]
  exact if_neg (by rw [h]; exact Bool.false_ne_true)

theorem waits_feed (l : Loop) (line : String) : Waits (feed l line).1.pending := by
  rw [feed]
  cases hcomplete : isComplete (join l.pending line).toList with
  | true =>
    rw [offer_of_isComplete hcomplete]
    exact .inl rfl
  | false =>
    rw [offer_of_isComplete_eq_false hcomplete]
    exact .inr hcomplete

theorem waits_feedAll {l : Loop} (h : Waits l.pending) (lines : List String) :
    Waits (feedAll l lines).1.pending := by
  induction lines generalizing l with
  | nil => exact h
  | cons line lines ih => exact ih (waits_feed l line)

/-- What waits can be run with one more line. -/
theorem Waits.exists_line {pending : String} (h : Waits pending) (hne : pending ≠ "") :
    ∃ line vs, '\n' ∉ line.toList ∧ read (pending ++ "\n" ++ line) none = .ok vs ∧
      offer pending line = (some (pending ++ "\n" ++ line), "") := by
  have hincomplete : isComplete pending.toList = false := h.resolve_left hne
  obtain ⟨-, line, vs, hline, hread⟩ := Source.mendable_of_isComplete_eq_false hincomplete none
  have hjoin : join pending line = pending ++ "\n" ++ line := by
    rw [join, if_neg (by rwa [String.isEmpty_iff])]
  have hcomplete : isComplete (join pending line).toList = true := by
    rw [hjoin]
    exact Source.isComplete_of_read hread
  refine ⟨line, vs, hline, hread, ?_⟩
  rw [offer_of_isComplete hcomplete, hjoin]

/-- What is submitted needs no more text. -/
theorem isComplete_of_offer {pending line text waiting : String}
    (h : offer pending line = (some text, waiting)) : isComplete text.toList = true := by
  cases hcomplete : isComplete (join pending line).toList with
  | true =>
    rw [offer_of_isComplete hcomplete] at h
    cases h
    exact hcomplete
  | false =>
    rw [offer_of_isComplete_eq_false hcomplete] at h
    cases h

end Repl

/-- **`isComplete` answers what a reader of lines needs to know.** A source that it calls incomplete
cannot be read, but with one more line it can. A source that it calls complete and that cannot be
read fails in the same way and at the same place whatever follows. So whatever lines the loop got,
one more line ends its waiting, and what it submits and cannot read, no further line would have
mended. -/
theorem Source.isComplete_exact :
    (∀ source file, isComplete source.toList = false →
      (∃ failure, read source file = .error failure) ∧
        ∃ line vs, '\n' ∉ line.toList ∧ read (source ++ "\n" ++ line) file = .ok vs) ∧
    (∀ source file failure, isComplete source.toList = true → read source file = .error failure →
      ∀ more, read (source ++ "\n" ++ more) file = .error failure) ∧
    (∀ session lines pending, (Repl.feedAll ⟨session, ""⟩ lines).1.pending = pending →
      pending ≠ "" → ∃ line vs, '\n' ∉ line.toList ∧ read (pending ++ "\n" ++ line) none = .ok vs ∧
        Repl.offer pending line = (some (pending ++ "\n" ++ line), "")) ∧
    (∀ pending line text waiting failure, Repl.offer pending line = (some text, waiting) →
      read text none = .error failure →
        ∀ more, read (text ++ "\n" ++ more) none = .error failure) := by
  refine ⟨?incomplete, ?complete, ?waiting, ?submitted⟩
  case incomplete =>
    intro source file hincomplete
    exact mendable_of_isComplete_eq_false hincomplete file
  case complete =>
    intro source file failure hcomplete hread more
    exact final_of_isComplete hcomplete hread more
  case waiting =>
    rintro session lines pending rfl hne
    -- what waits is always a text that was found incomplete
    have hwaits := Repl.waits_feedAll (l := ⟨session, ""⟩) (.inl rfl) lines
    exact hwaits.exists_line hne
  case submitted =>
    intro pending line text waiting failure hoffer hread more
    exact final_of_isComplete (Repl.isComplete_of_offer hoffer) hread more

end SmallLisp
