import SmallLisp.Proofs.Source.Joining

/-!
# The place of a fault

A text that cannot be read is reported with a line and a column. They point at exactly one offset of
the text, counted in code units (`pointsAt_locate_iff`), and what stands there is the fault itself
(`Offends`): the end of the text, a closing mark without its opening one, the quote of a string that
is never closed, or the hash sign of a literal that is none. Nothing before it is wrong: the text up
to that offset is a program, or one that only stops too early (`read_eq_error_place`).

The last part is about the lexemes before the one at fault. They are those of the text before it
(`exists_before`), since an atom or a comment that ends there has ended for another reason than the
end of the text. So the reading of that text goes the same way, up to the fault.
-/

namespace SmallLisp.Source

open Text

variable {cs before rest : List Char}

/-! ### Lines and columns as offsets -/

/-- The line and the column point at the offset: as many line feeds stand before it, and as many
code units between the last of them, or the start of the text, and the offset. Both count
from one. -/
structure PointsAt (cs : List Char) (line column offset : Nat) : Prop where
  le : offset ≤ unitCount cs
  line_eq : line = 1 + ((cs.flatMap units).take offset).count 0x0A
  column_eq : column
    = 1 + (((cs.flatMap units).take offset).reverse.takeWhile (· ≠ 0x0A)).length

@[simp] theorem unitCount_cons (c : Char) (cs : List Char) :
    unitCount (c :: cs) = (units c).length + unitCount cs := by
  rw [unitCount, List.flatMap_cons, List.length_append, unitCount]

/-- The code unit of a line feed is in no other character. -/
theorem lineFeed_mem_units_iff {c : Char} : 0x0A ∈ units c ↔ c = '\n' := by
  constructor
  · intro h
    rw [units] at h
    split at h
    · have hc : c.toNat = '\n'.toNat := (List.mem_singleton.1 h).symm
      exact Char.toNat_inj.1 hc
    · -- surrogates are far above it
      simp only [List.mem_cons, List.not_mem_nil, or_false] at h
      omega
  · rintro rfl
    decide

theorem count_flatMap_units (cs : List Char) :
    (cs.flatMap units).count 0x0A = cs.count '\n' := by
  induction cs with
  | nil => rfl
  | cons c cs ih =>
    rw [List.flatMap_cons, List.count_append, ih, List.count_cons]
    -- of the units of a character only that of a line feed is one
    by_cases hc : c = '\n'
    · subst hc
      rw [show (units '\n').count 0x0A = 1 by decide, if_pos (by decide), Nat.add_comm]
    · rw [List.count_eq_zero.2 (mt lineFeed_mem_units_iff.1 hc), if_neg (by simpa using hc),
        Nat.zero_add, Nat.add_zero]

theorem length_takeWhile_flatMap_units (cs : List Char) :
    ((cs.flatMap units).reverse.takeWhile (· ≠ 0x0A)).length
      = unitCount (cs.reverse.takeWhile (· ≠ '\n')) := by
  -- the last line grows at its end, so the induction takes characters off the back
  induction cs using List.reverseRecOn with
  | nil => rfl
  | append_singleton cs c ih =>
    rw [List.flatMap_append, List.flatMap_singleton, List.reverse_append, List.reverse_append,
      List.reverse_singleton, List.singleton_append]
    by_cases hc : c = '\n'
    · -- a line feed begins a new line, which is empty on both sides
      subst hc
      rfl
    · -- any other character has no line feed among its units, so all of them are on the line
      have hunits : ∀ u ∈ (units c).reverse, decide (u ≠ 0x0A) = true := by
        intro u hu
        refine decide_eq_true ?_
        rintro rfl
        exact hc (lineFeed_mem_units_iff.1 (List.mem_reverse.1 hu))
      rw [List.takeWhile_append_of_pos hunits, List.takeWhile_cons_of_pos (by simpa using hc),
        List.length_append, List.length_reverse, unitCount_cons, ih]

/-- What is added to a text moves its end to another line or to another column. -/
theorem eq_nil_of_same_place {us more : List Nat}
    (hline : (us ++ more).count 0x0A = us.count 0x0A)
    (hcolumn : ((us ++ more).reverse.takeWhile (· ≠ 0x0A)).length
      = (us.reverse.takeWhile (· ≠ 0x0A)).length) : more = [] := by
  -- the same number of line feeds: there is none in what is more, so all of it is on the last line
  have hmore : ∀ u ∈ more.reverse, decide (u ≠ 0x0A) = true := by
    rw [List.count_append, Nat.add_eq_left, List.count_eq_zero] at hline
    intro u hu
    refine decide_eq_true ?_
    rintro rfl
    exact hline (List.mem_reverse.1 hu)
  rw [List.reverse_append, List.takeWhile_append_of_pos hmore, List.length_append,
    Nat.add_eq_right, List.length_reverse] at hcolumn
  exact List.length_eq_zero_iff.1 hcolumn

/-- **A line and a column point at one offset at most.** -/
theorem PointsAt.unique {line column p q : Nat} (hp : PointsAt cs line column p)
    (hq : PointsAt cs line column q) : p = q := by
  -- of two offsets the later one has more text before it
  have hle : ∀ {p q : Nat}, PointsAt cs line column p → PointsAt cs line column q → p ≤ q →
      p = q := by
    intro p q hp hq hpq
    obtain ⟨more, rfl⟩ := Nat.exists_eq_add_of_le hpq
    have hsplit : (cs.flatMap units).take (p + more)
        = (cs.flatMap units).take p ++ ((cs.flatMap units).drop p).take more := List.take_add
    have hline := hq.line_eq.symm.trans hp.line_eq
    have hcolumn := hq.column_eq.symm.trans hp.column_eq
    rw [hsplit] at hline hcolumn
    have hnil := eq_nil_of_same_place (Nat.add_left_cancel hline) (Nat.add_left_cancel hcolumn)
    have hlength : p + more ≤ (cs.flatMap units).length := hq.le
    rw [List.take_eq_nil_iff, List.drop_eq_nil_iff] at hnil
    omega
  rcases Nat.le_total p q with hpq | hqp
  · exact hle hp hq hpq
  · exact (hle hq hp hqp).symm

/-- **The place after a text points at its end**, and at no other offset of the text that
goes on. -/
theorem pointsAt_locate_iff (before rest : List Char) (file : Option String) (offset : Nat) :
    PointsAt (before ++ rest) (locate before file).line (locate before file).column offset
      ↔ offset = unitCount before := by
  -- the place is that of the offset; that it is of no other one is `PointsAt.unique`
  have hplace : PointsAt (before ++ rest) (locate before file).line (locate before file).column
      (unitCount before) := by
    have htake : ((before ++ rest).flatMap units).take (unitCount before)
        = before.flatMap units := by
      rw [List.flatMap_append]
      exact List.take_left
    refine ⟨?_, ?_, ?_⟩
    · rw [unitCount_append]
      exact Nat.le_add_right _ _
    · rw [htake, count_flatMap_units, Nat.add_comm]
      rfl
    · rw [htake, length_takeWhile_flatMap_units, Nat.add_comm]
      rfl
  constructor
  · exact fun h => h.unique hplace
  · rintro rfl
    exact hplace

/-! ### What stands at a fault -/

/-- How a lexeme stands in the text: as a token that ends where it has to, or as a string that is
never closed. -/
inductive Spelled : Lexeme → Prop where
  | token {token : Token} {word after : List Char} : Spelling token word →
      token.EndsBefore after → Spelled ⟨token, word ++ after⟩
  | openString {rest : List Char} : scanString rest = none → Spelled ⟨.openString, '\x22' :: rest⟩

theorem spelled_atom {c : Char} (hc : isAtomChar c = true) (rest : List Char) :
    Spelled ⟨.atom (c :: rest.takeWhile isAtomChar), c :: rest⟩ := by
  obtain ⟨hword, hstop⟩ := spelling_atom hc rest
  have hspelled := Spelled.token hword hstop
  rwa [List.cons_append, List.takeWhile_append_dropWhile] at hspelled

theorem spelled_of_mem {l : Lexeme} (h : l ∈ tokenize cs) : Spelled l := by
  induction cs using textInduction with
  -- a lexeme is the one at the front, or one of the rest; blanks and comments have none at the
  -- front
  | nil =>
    rw [tokenize_nil] at h
    cases h
  | blank c rest hblank ih =>
    rw [tokenize_blank hblank] at h
    exact ih h
  | comment rest ih =>
    rw [tokenize_comment] at h
    exact ih h
  | opening rest ih =>
    rw [tokenize_opening] at h
    rcases List.mem_cons.1 h with rfl | h
    · exact .token .opening trivial
    · exact ih h
  | closing rest ih =>
    rw [tokenize_closing] at h
    rcases List.mem_cons.1 h with rfl | h
    · exact .token .closing trivial
    · exact ih h
  | quoteMark rest ih =>
    rw [tokenize_quoteMark] at h
    rcases List.mem_cons.1 h with rfl | h
    · exact .token .quoteMark trivial
    · exact ih h
  | openString rest hscan =>
    rw [tokenize_openString hscan] at h
    obtain rfl := List.mem_singleton.1 h
    exact .openString hscan
  | string rest text after hscan ih =>
    rw [tokenize_string hscan] at h
    rcases List.mem_cons.1 h with rfl | h
    · -- the text after the string is what the lexeme starts with but for the string itself
      obtain ⟨body, hbody, rfl⟩ := scanString_eq_some_iff.1 hscan
      have hspelled : Spelled ⟨_, _ ++ after⟩ := .token (.string hbody) trivial
      rwa [List.cons_append, List.append_assoc] at hspelled
    · exact ih h
  | atom c rest hc ih =>
    rw [tokenize_atom hc] at h
    rcases List.mem_cons.1 h with rfl | h
    · exact spelled_atom hc rest
    · exact ih h

/-- What is wrong with a text that goes on as given. -/
inductive Offends : ReadFault → List Char → Prop where
  /-- It does not go on. -/
  | unexpectedEnd : Offends .unexpectedEnd []
  /-- It closes what was not opened. -/
  | unexpectedToken {after : List Char} : Offends (.unexpectedToken ")") (')' :: after)
  /-- It goes on with a quote at which no string stands. -/
  | unterminatedString {after : List Char} :
      (∀ token word tail, Spelling token word → '\x22' :: after ≠ word ++ tail) →
      Offends .unterminatedString ('\x22' :: after)
  /-- It goes on with an atom, as long as it can be, that has a hash sign first and no value. -/
  | invalidLiteral {word after : List Char} : word.head? = some '#' →
      (∀ c ∈ word, isAtomChar c = true) → (∀ c ∈ after.head?, isAtomChar c = false) →
      (∀ v, ¬ AtomValue word v) → Offends (.invalidLiteral (String.ofList word)) (word ++ after)

theorem offends_openString {after : List Char} (h : scanString after = none) :
    Offends .unterminatedString ('\x22' :: after) := by
  refine .unterminatedString fun token word tail hword heq => ?_
  cases hword with
  | opening | closing | quoteMark => cases heq
  | string hbody =>
    -- the string would be closed
    rw [List.cons_append, List.append_assoc] at heq
    have hclosed := scanString_eq_some_iff.2 ⟨_, hbody, (List.cons.inj heq).2⟩
    rw [h] at hclosed
    cases hclosed
  | atom hne hword =>
    obtain ⟨c, word, rfl⟩ := List.exists_cons_of_ne_nil hne
    obtain ⟨rfl, -⟩ := List.cons.inj heq
    exact absurd (hword '\x22' List.mem_cons_self) (by decide)

/-- Only the literals with a hash sign can be invalid, and those only if they have no value. -/
theorem ofAtom_eq_error {word : List Char} {fault : ReadFault}
    (h : Reading.ofAtom word = .error fault) :
    fault = .invalidLiteral (String.ofList word) ∧ word.head? = some '#' ∧
      ∀ v, ¬ AtomValue word v := by
  -- an atom with a value would have been read
  have hvalue : ∀ v, ¬ AtomValue word v := by
    intro v hv
    rw [ofAtom_eq_ok_iff.2 hv] at h
    cases h
  rw [Reading.ofAtom] at h
  -- only an atom with a hash sign first can fail, where it is neither of the two truth values
  split at h
  · next hhash =>
    split at h
    · cases h
    · split at h
      · cases h
      · cases h
        exact ⟨rfl, hhash, hvalue⟩
  · split at h
    · cases h
    · cases h

/-- **A lexeme that cannot be read is what is wrong with the text.** -/
theorem offends_of_step {l : Lexeme} (hl : Spelled l) {r : Reading} {fault : ReadFault}
    (h : r.step l.token = .error fault) : Offends fault l.start := by
  -- a string that does not end offends by itself; of the tokens, only two can fail a step
  cases hl with
  | openString hscan =>
    cases h
    exact offends_openString hscan
  | @token token word after hword hends =>
    cases hword with
    | opening | quoteMark | string _ => cases h
    | closing =>
      dsimp only [Reading.step] at h
      -- a parenthesis closes a list that is open, and fails if none is
      split at h
      · cases h
      · cases h
        exact .unexpectedToken
    | atom hne hchars =>
      cases hatom : Reading.ofAtom word with
      | ok v =>
        rw [Reading.step, hatom] at h
        cases h
      | error found =>
        rw [Reading.step, hatom] at h
        cases h
        obtain ⟨rfl, hhash, hvalue⟩ := ofAtom_eq_error hatom
        exact .invalidLiteral hhash hchars hends hvalue

/-! ### What stands before a fault -/

/-- A fault is found at one of the lexemes, and those before it can be read. -/
theorem exists_fault_of_run {r : Reading} {ls : List Lexeme} {m : Misread}
    (h : run r ls = .error m) : ∃ earlier l later reached, ls = earlier ++ l :: later ∧
      run r earlier = .ok reached ∧ reached.step l.token = .error m.fault ∧ m.rest = l.start := by
  -- a run stops at the first step that fails, so the induction looks for that step
  induction ls generalizing r with
  | nil => cases h
  | cons l ls ih =>
    rw [run] at h
    split at h
    · next next hstep =>
      obtain ⟨earlier, at', later, reached, rfl, hrun, hfault, hrest⟩ := ih h
      refine ⟨l :: earlier, at', later, reached, rfl, ?_, hfault, hrest⟩
      rw [run, hstep]
      exact hrun
    · next fault hstep =>
      cases h
      exact ⟨[], l, ls, r, rfl, rfl, hstep, rfl⟩

/-- The first of some lexemes is the one given, or it is the first of those before that. -/
theorem cons_eq_append_cons {first l : Lexeme} {ls earlier later : List Lexeme}
    (h : first :: ls = earlier ++ l :: later) :
    earlier = [] ∧ first = l ∨ ∃ others, earlier = first :: others ∧ ls = others ++ l :: later := by
  cases earlier with
  | nil => exact .inl ⟨rfl, (List.cons.inj h).1⟩
  | cons e others =>
    obtain ⟨rfl, hls⟩ := List.cons.inj h
    exact .inr ⟨others, rfl, hls⟩

/-- A run of characters ends where it did, if the text after it stops somewhere further on. -/
theorem span_of_eq_append {p : Char → Bool} {rest tail : List Char}
    (h : rest.dropWhile p = before ++ tail) :
    (rest.takeWhile p ++ before).takeWhile p = rest.takeWhile p ∧
      (rest.takeWhile p ++ before).dropWhile p = before := by
  have hall : ∀ c ∈ rest.takeWhile p, p c = true :=
    fun c hc => List.all_eq_true.1 List.all_takeWhile c hc
  rw [List.takeWhile_append_of_pos hall, List.dropWhile_append_of_pos hall]
  -- what comes after the longest prefix begins with a character that ends it, also when it is cut
  -- off
  cases before with
  | nil => simp
  | cons c before =>
    have hstop := List.head?_dropWhile_not p rest
    rw [h] at hstop
    have hc : ¬ p c = true := by simpa using hstop
    rw [List.takeWhile_cons_of_neg hc, List.dropWhile_cons_of_neg hc, List.append_nil]
    exact ⟨rfl, rfl⟩

/-- A lexeme is the first one, with nothing before it, or it is one after that. The first one has to
be the same where the text after it stops further on. -/
theorem exists_before_of_first (token : Token) (body : List Char) {rest : List Char} {l : Lexeme}
    {earlier later : List Lexeme}
    (hfirst : ∀ before tail, rest = before ++ tail →
      tokenize (body ++ before) = ⟨token, body ++ before⟩ :: tokenize before)
    (hrest : ∀ {earlier}, tokenize rest = earlier ++ l :: later →
      ∃ before, rest = before ++ l.start ∧
        (tokenize before).map Lexeme.token = earlier.map Lexeme.token)
    (h : tokenize (body ++ rest) = earlier ++ l :: later) :
    ∃ before, body ++ rest = before ++ l.start ∧
      (tokenize before).map Lexeme.token = earlier.map Lexeme.token := by
  rw [hfirst rest [] (List.append_nil rest).symm] at h
  rcases cons_eq_append_cons h with ⟨rfl, rfl⟩ | ⟨others, rfl, hothers⟩
  · exact ⟨[], rfl, by rw [tokenize_nil]⟩
  · obtain ⟨before, hbefore, htokens⟩ := hrest hothers
    refine ⟨body ++ before, by rw [hbefore, List.append_assoc], ?_⟩
    rw [hfirst before l.start hbefore, List.map_cons, htokens, List.map_cons]

/-- **The lexemes before one are those of the text before it.** -/
theorem exists_before {l : Lexeme} {earlier later : List Lexeme}
    (h : tokenize cs = earlier ++ l :: later) :
    ∃ before, cs = before ++ l.start ∧
      (tokenize before).map Lexeme.token = earlier.map Lexeme.token := by
  induction cs using textInduction generalizing earlier with
  -- what is passed over is put in front of what is before the lexeme in the rest, and tokenizes to
  -- the same there
  | nil =>
    rw [tokenize_nil] at h
    exact absurd h (by simp)
  | blank c rest hblank ih =>
    rw [tokenize_blank hblank] at h
    obtain ⟨before, rfl, htokens⟩ := ih h
    exact ⟨c :: before, rfl, by rw [tokenize_blank hblank, htokens]⟩
  | comment rest ih =>
    rw [tokenize_comment] at h
    -- the comment runs to the same end when the text stops at the lexeme
    obtain ⟨before, hrest, htokens⟩ := ih h
    refine ⟨';' :: (rest.takeWhile (· ≠ '\n') ++ before), ?_, ?_⟩
    · rw [List.cons_append, List.append_assoc, ← hrest, List.takeWhile_append_dropWhile]
    · rw [tokenize_comment, (span_of_eq_append hrest).2, htokens]
  | opening rest ih =>
    exact exists_before_of_first .opening ['('] (fun before _ _ => tokenize_opening before) ih h
  | closing rest ih =>
    exact exists_before_of_first .closing [')'] (fun before _ _ => tokenize_closing before) ih h
  | quoteMark rest ih =>
    exact exists_before_of_first .quoteMark ['\x27'] (fun before _ _ => tokenize_quoteMark before)
      ih h
  | openString rest hscan =>
    rw [tokenize_openString hscan] at h
    rcases cons_eq_append_cons h with ⟨rfl, rfl⟩ | ⟨others, -, hothers⟩
    · exact ⟨[], rfl, by rw [tokenize_nil]⟩
    · -- after a string that does not end there is no lexeme
      exact absurd hothers (by simp)
  | string rest text after hscan ih =>
    obtain ⟨body, hbody, rfl⟩ := scanString_eq_some_iff.1 hscan
    have hsplit : ∀ tail : List Char,
        '\x22' :: (body ++ '\x22' :: tail) = '\x22' :: (body ++ ['\x22']) ++ tail := by simp
    rw [hsplit] at h ⊢
    refine exists_before_of_first (.string text) _ (fun before _ _ => ?_) ih h
    -- the string ends at its own quote, whatever comes after that
    rw [← hsplit]
    exact tokenize_string (scanString_eq_some_iff.2 ⟨body, hbody, rfl⟩)
  | atom c rest hc ih =>
    have hsplit : c :: rest
        = c :: rest.takeWhile isAtomChar ++ rest.dropWhile isAtomChar := by
      rw [List.cons_append, List.takeWhile_append_dropWhile]
    rw [hsplit] at h ⊢
    refine exists_before_of_first (.atom (c :: rest.takeWhile isAtomChar)) _
      (fun before tail hbefore => ?_) ih h
    -- the atom is as long as before: what follows it begins with the same character, or is empty
    obtain ⟨htake, hdrop⟩ := span_of_eq_append hbefore
    rw [List.cons_append, tokenize_atom hc, htake, hdrop]

/-- A text whose lexemes can all be read is a program, or one that stops too early. -/
theorem readAll_of_run {r : Reading} (h : run .start (tokenize cs) = .ok r) :
    (∃ vs, readAll cs = .ok vs) ∨ readAll cs = .error ⟨.unexpectedEnd, []⟩ := by
  obtain ⟨finished, pending⟩ := r
  rw [readAll, h]
  cases pending with
  | nil => exact .inl ⟨_, rfl⟩
  | cons first pending => exact .inr rfl

/-- **A text is wrong where it is said to be, and not before.** -/
theorem exists_before_of_readAll {m : Misread} (h : readAll cs = .error m) :
    ∃ before, cs = before ++ m.rest ∧ Offends m.fault m.rest ∧
      ((∃ vs, readAll before = .ok vs) ∨ readAll before = .error ⟨.unexpectedEnd, []⟩) := by
  cases hrun : run .start (tokenize cs) with
  | ok r =>
    have hread := readAll_of_run hrun
    rw [h] at hread
    obtain ⟨vs, hvs⟩ | hend := hread
    · cases hvs
    · obtain rfl := Except.error.inj hend
      exact ⟨cs, (List.append_nil cs).symm, .unexpectedEnd, .inr h⟩
  | error misread =>
    obtain rfl : misread = m := by
      rw [readAll, hrun] at h
      exact Except.error.inj h
    obtain ⟨earlier, l, later, reached, htokenize, hearlier, hfault, hrest⟩ :=
      exists_fault_of_run hrun
    obtain ⟨before, hcs, htokens⟩ := exists_before htokenize
    -- the text before the lexeme is read as the lexemes before it are
    have hbefore : run .start (tokenize before) = .ok reached := by
      rw [run_eq_ok_iff, htokens, ← run_eq_ok_iff]
      exact hearlier
    have hmem : l ∈ tokenize cs := htokenize ▸ List.mem_append_right _ List.mem_cons_self
    rw [hrest]
    exact ⟨before, hcs, offends_of_step (spelled_of_mem hmem) hfault, readAll_of_run hbefore⟩

/-! ### Sources -/

/-- **A source is reported to be wrong at its leftmost fault.** A source that cannot be read is
reported with a line and a column that point at exactly one offset of it. What is reported is what
is wrong there: at the end of the source that it stops too early, at a closing mark that it closes
nothing, at a quote that no string stands there, at a hash sign that the atom there, which is quoted
as a whole, is no literal. The source up to the offset can be read, or stops too early. -/
theorem read_eq_error_place {source : String} {file : Option String} {failure : Failure}
    (h : read source file = .error failure) :
    ∃ fault line column before rest, failure = .read fault (some ⟨line, column, file⟩) ∧
      source.toList = before ++ rest ∧
      (∀ offset, PointsAt source.toList line column offset ↔ offset = unitCount before) ∧
      Offends fault rest ∧
      ((∃ vs, read (String.ofList before) file = .ok vs) ∨
        ∃ place, read (String.ofList before) file = .error (.read .unexpectedEnd place)) := by
  cases hall : readAll source.toList with
  | ok vs =>
    rw [read_of_readAll hall] at h
    cases h
  | error m =>
    rw [read_of_readAll_error hall] at h
    cases h
    -- the text before the step that fails determines the place, and is read up to there
    obtain ⟨before, hsource, hoffends, hbefore⟩ := exists_before_of_readAll hall
    -- the place is computed from how much of the text is left
    have htake : source.toList.take (source.toList.length - m.rest.length) = before := by
      rw [hsource, List.length_append, Nat.add_sub_cancel, List.take_left]
    have hread : (String.ofList before).toList = before := String.toList_ofList
    refine ⟨m.fault, (locate before file).line, (locate before file).column, before, m.rest, ?_,
      hsource, fun offset => ?_, hoffends, ?_⟩
    · rw [Misread.failure, htake]
      rfl
    · rw [hsource]
      exact pointsAt_locate_iff before m.rest file offset
    · rcases hbefore with ⟨vs, hvs⟩ | hend
      · exact .inl ⟨vs, read_of_readAll (hread.symm ▸ hvs) file⟩
      · exact .inr ⟨_, read_of_readAll_error (hread.symm ▸ hend) file⟩

/-- A string on the second line that is never closed is reported where it starts. -/
theorem read_eq_error_place_open_string :
    ∃ source failure, source = "('a\n \"b)\n" ∧ read source none = .error failure ∧
      ∃ fault line column before rest, failure = .read fault (some ⟨line, column, none⟩) ∧
        source.toList = before ++ rest ∧
        (∀ offset, PointsAt source.toList line column offset ↔ offset = unitCount before) ∧
        Offends fault rest ∧
        ((∃ vs, read (String.ofList before) none = .ok vs) ∨
          ∃ place, read (String.ofList before) none = .error (.read .unexpectedEnd place)) := by
  have hread : read "('a\n \"b)\n" none
      = .error (.read .unterminatedString (some ⟨2, 2, none⟩)) := by cbv
  exact ⟨_, _, rfl, hread, read_eq_error_place hread⟩

end SmallLisp.Source
