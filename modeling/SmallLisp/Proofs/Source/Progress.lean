import SmallLisp.Proofs.Source.Descent
import SmallLisp.Proofs.Source.Spacing

/-!
# The reader always comes to an end

Reading by recursive descent goes on at least one character with every expression, and it never
leaves the text (`readsExpr`). So it comes to an end on every text, however malformed, and there it
has what `Source.Read` has: the same values, or the same fault at the same place
(`read_progresses`).

What an expression is to the words of the text is said by `Reads`: as long as something is open, the
pass over the words reads the words of the expression and then has its value, or it meets the fault.
The induction is on how much text remains. The expression at a word has what it needs further on
(`exists_readDatum`), and so has each element of a list, which is behind the elements before it
(`exists_readElements`). Both are step lemmas, which are given the expressions further on. The
number of rounds that they need grows with the rest of the text: three for each character, since a
character may be an opening mark, after which the list, its first element and the word of that
element begin.
-/

namespace SmallLisp.Source.Descent

open Text

variable {cs rest after : List Char} {file : Option String}

/-! ### What is read, to the words -/

/-- How it ends to read what begins at the rest of a text. When the pass over the words comes there,
`inner` is open, and it reads on to the value and places it in `outer`, or it meets the fault.
Behind a value there is less text. -/
inductive Reads (rest : List Char) (Waits : List Pending → List Pending → Prop) :
    Except Misread (Value × List Char) → Prop where
  | value {v : Value} {after : List Char} : after <:+ rest → after.length < rest.length →
      (∀ outer inner, Waits outer inner →
        next ⟨[], inner⟩ (tokenize rest) = next (.place [] v outer) (tokenize after)) →
      Reads rest Waits (.ok (v, after))
  | fault {m : Misread} : m.rest <:+ rest →
      (∀ outer inner, Waits outer inner → next ⟨[], inner⟩ (tokenize rest) = .error m) →
      Reads rest Waits (.error m)

/-- The words do not begin with the closing mark of a list that is open. -/
def Expects (pending : List Pending) (ls : List Lexeme) : Prop :=
  ∀ l ∈ ls.head?, l.token = .closing → ∀ reversed outer, pending ≠ .items reversed :: outer

/-- An expression is read into what is open. -/
def IntoOpen (rest : List Char) (outer inner : List Pending) : Prop :=
  outer = inner ∧ Expects outer (tokenize rest)

/-- The elements of a list are read into that list. -/
def IntoList (elements : List Value) (outer inner : List Pending) : Prop :=
  inner = .items elements.reverse :: outer

/-- Reading may begin further in front, with words that lead there. -/
theorem Reads.of_steps {Waits Waits' : List Pending → List Pending → Prop}
    {outcome : Except Misread (Value × List Char)} (h : Reads after Waits' outcome)
    (hafter : after <:+ rest)
    (hsteps : ∀ outer inner, Waits outer inner → ∃ inner', Waits' outer inner'
      ∧ next ⟨[], inner⟩ (tokenize rest) = next ⟨[], inner'⟩ (tokenize after)) :
    Reads rest Waits outcome := by
  cases h with
  | value hsuffix hless hnext =>
    refine .value (hsuffix.trans hafter) (hless.trans_le hafter.length_le) fun outer inner hw => ?_
    -- the tokens skipped over bring the reading from the one state to the other
    obtain ⟨inner', hw', hstep⟩ := hsteps outer inner hw
    rw [hstep, hnext outer inner' hw']
  | fault hsuffix hnext =>
    refine .fault (hsuffix.trans hafter) fun outer inner hw => ?_
    obtain ⟨inner', hw', hstep⟩ := hsteps outer inner hw
    rw [hstep, hnext outer inner' hw']

/-- The next expression is read there, in as many rounds as three for each character that remains
and two more. -/
def ReadsExpr (cs : List Char) (file : Option String) (rest : List Char) : Prop :=
  ∀ rounds, 3 * rest.length + 2 ≤ rounds →
    ∃ outcome, readExpr cs file rounds (.before cs rest) = ends cs file outcome
      ∧ Reads rest (IntoOpen rest) outcome

/-- A text that begins with a word has a lexeme there, and it is a closing mark only if that is the
character. -/
theorem exists_lexeme {c : Char} (h : Begins (c :: rest)) : ∃ token ls,
    tokenize (c :: rest) = ⟨token, c :: rest⟩ :: ls ∧ (token = .closing → c = ')') := by
  -- the text as one variable, so that the induction gives its cases; no hypothesis of it is used
  generalize htext : c :: rest = text at h ⊢
  induction text using textInduction with
  | nil => cases htext
  | blank d tail hblank =>
    have hword := (h d rfl).1
    rw [hblank] at hword
    cases hword
  -- blanks and comments have been skipped, so the text begins with neither
  | comment tail => exact absurd rfl (h ';' rfl).2
  | opening tail => exact ⟨_, _, tokenize_opening tail, nofun⟩
  | closing tail => exact ⟨_, _, tokenize_closing tail, fun _ => (List.cons.inj htext).1⟩
  | quoteMark tail => exact ⟨_, _, tokenize_quoteMark tail, nofun⟩
  | openString tail hscan => exact ⟨_, _, tokenize_openString hscan, nofun⟩
  | string tail text after hscan => exact ⟨_, _, tokenize_string hscan, nofun⟩
  | atom d tail hd => exact ⟨_, _, tokenize_atom hd tail, nofun⟩

/-- Where another character begins a word, every expression may be read. -/
theorem expects_of_begins {c : Char} (h : Begins (c :: rest)) (hc : c ≠ ')')
    (pending : List Pending) : Expects pending (tokenize (c :: rest)) := by
  obtain ⟨token, ls, htokens, hclosing⟩ := exists_lexeme h
  intro l hl htoken
  rw [htokens] at hl
  cases hl
  exact absurd (hclosing htoken) hc

/-! ### Lists -/

theorem closeList_nil (elements : List Value) : closeList cs file elements (.before cs [])
    = ends cs file (.error ⟨.unexpectedEnd, []⟩) := by
  rw [closeList, ifAtEnd_nil, bind_of_ok location_before, report_before]

theorem closeList_mark (h : ')' :: rest <:+ cs) (elements : List Value) :
    closeList cs file elements (.before cs (')' :: rest))
      = ends cs file (.ok (.ofList elements, rest)) := by
  rw [closeList, ifAtEnd_cons h, bind_of_ok (advance_before h)]
  rfl

/-- An element in front of the others. -/
theorem Reads.cons_element {v : Value} {elements : List Value}
    {outcome : Except Misread (Value × List Char)} (hexpects : ∀ pending,
      Expects pending (tokenize rest)) (hnext : ∀ outer inner, IntoOpen rest outer inner →
      next ⟨[], inner⟩ (tokenize rest) = next (.place [] v outer) (tokenize after))
    (h : Reads after (IntoList (elements ++ [v])) outcome) (hafter : after <:+ rest) :
    Reads rest (IntoList elements) outcome := by
  refine h.of_steps hafter ?_
  rintro outer _ rfl
  refine ⟨_, rfl, ?_⟩
  rw [hnext _ _ ⟨rfl, hexpects _⟩, List.reverse_append]
  rfl

/-- **The elements of a list**: the loop ends, because every element takes some of the text. -/
theorem exists_readElements (rounds : Nat)
    (hexpr : ∀ after, after <:+ rest → ReadsExpr cs file after) (h : rest <:+ cs)
    (hbegins : Begins rest) (hrounds : 3 * rest.length + 3 ≤ rounds) (elements : List Value) :
    ∃ outcome, readElements cs file rounds elements (.before cs rest) = ends cs file outcome
      ∧ Reads rest (IntoList elements) outcome := by
  induction rounds generalizing rest elements with
  | zero => exact absurd hrounds (by omega)
  | succ rounds ih =>
    cases rest with
    | nil =>
      refine ⟨.error ⟨.unexpectedEnd, []⟩, ?_, .fault List.suffix_rfl ?_⟩
      · rw [readElements, ifAtEnd_nil, closeList_nil]
      · rintro outer _ rfl
        rw [tokenize_nil]
        rfl
    | cons c rest =>
      rw [readElements, ifAtEnd_cons h, bind_of_ok (peek_before h)]
      by_cases hc : c = ')'
      · subst hc
        rw [if_pos rfl]
        refine ⟨_, closeList_mark h elements,
          .value (List.suffix_cons _ rest) (Nat.lt_succ_self _) ?_⟩
        rintro outer _ rfl
        rw [tokenize_closing]
        change next (.place [] (.ofList elements.reverse.reverse) outer) _ = _
        rw [List.reverse_reverse]
      · rw [if_neg hc]
        -- no closing mark, so an element begins there
        have hexpects := expects_of_begins hbegins hc
        obtain ⟨outcome, hread, hreads⟩ := hexpr (c :: rest) List.suffix_rfl rounds (by omega)
        cases hreads with
        | fault hsuffix hnext =>
          refine ⟨_, bind_of_error hread _, .fault hsuffix ?_⟩
          rintro outer _ rfl
          exact hnext _ _ ⟨rfl, hexpects _⟩
        | @value v after hafter hless hnext =>
          -- the element has taken some of the text, so there are rounds left for the others
          obtain ⟨later, hlater, hlaterBegins, hsame, hskip⟩ :=
            exists_skip rounds (hafter.trans h) (by omega)
          have hrest : later <:+ c :: rest := hlater.trans hafter
          have hshorter := hlater.length_le
          obtain ⟨outcome, hmore, hmoreReads⟩ := ih
            (fun text htext => hexpr text (htext.trans hrest)) (hrest.trans h) hlaterBegins
            (by omega) (elements ++ [v])
          rw [bind_of_ok hread, bind_of_ok hskip]
          rw [← hsame] at hnext
          exact ⟨outcome, hmore, hmoreReads.cons_element hexpects hnext hrest⟩

/-! ### Expressions -/

theorem readDatum_string {rounds : Nat} (h : '\x22' :: rest <:+ cs)
    (hrounds : rest.length < rounds) :
    readDatum cs file (rounds + 1) (.before cs ('\x22' :: rest))
      = ends cs file (stringOutcome ('\x22' :: rest) [] (scanString rest)) := by
  rw [readDatum, ifAtEnd_cons h, bind_of_ok (peek_before h), if_neg (by decide), if_neg (by decide),
    if_neg (by decide), if_pos rfl, readString_before h hrounds]

theorem readDatum_atom {c : Char} {rounds : Nat} (h : c :: rest <:+ cs)
    (hc : isAtomChar c = true) (hrounds : (c :: rest).length < rounds) :
    readDatum cs file (rounds + 1) (.before cs (c :: rest))
      = ends cs file (atomOutcome (c :: rest) (rest.dropWhile isAtomChar)
          (Reading.ofAtom (c :: rest.takeWhile isAtomChar))) := by
  have hdelimiter := isDelimiter_of_isAtomChar hc
  simp only [isDelimiter, Bool.or_eq_false_iff, beq_eq_false_iff_ne] at hdelimiter
  obtain ⟨⟨⟨⟨hopening, hclosing⟩, hquoteMark⟩, hquote⟩, -⟩ := hdelimiter
  rw [readDatum, ifAtEnd_cons h, bind_of_ok (peek_before h), if_neg hopening, if_neg hclosing,
    if_neg hquoteMark, if_neg hquote, readAtom_before h hc hrounds]

/-- A list: its elements are behind the opening mark. -/
theorem exists_readDatum_list (rounds : Nat) (hexpr : ∀ after, after <:+ '(' :: rest →
      after.length < ('(' :: rest).length → ReadsExpr cs file after) (h : '(' :: rest <:+ cs)
    (hrounds : 3 * ('(' :: rest).length ≤ rounds) :
    ∃ outcome, readDatum cs file (rounds + 1) (.before cs ('(' :: rest)) = ends cs file outcome
      ∧ Reads ('(' :: rest) (IntoOpen ('(' :: rest)) outcome := by
  rw [List.length_cons] at hrounds
  -- behind the parenthesis the blanks are skipped, which keeps the tokens
  obtain ⟨after, hafter, hbegins, hsame, hskip⟩ := exists_skip rounds (suffix_of_cons h) (by omega)
  have hrest : after <:+ '(' :: rest := hafter.trans (List.suffix_cons _ rest)
  have hshorter := hafter.length_le
  -- what is left is shorter, so the elements can be read
  have helements : ∀ text, text <:+ after → ReadsExpr cs file text := fun text htext =>
    hexpr text (htext.trans hrest) (Nat.lt_succ_of_le (htext.trans hafter).length_le)
  obtain ⟨outcome, hread, hreads⟩ :=
    exists_readElements rounds helements (hrest.trans h) hbegins (by omega) []
  refine ⟨outcome, ?_, hreads.of_steps hrest ?_⟩
  · rw [readDatum, ifAtEnd_cons h, bind_of_ok (peek_before h), if_pos rfl,
      bind_of_ok (advance_before h), bind_of_ok hskip, hread]
  · -- the tokens: the parenthesis opens a list without elements
    rintro outer _ ⟨rfl, -⟩
    refine ⟨_, rfl, ?_⟩
    rw [tokenize_opening, hsame]
    rfl

/-- A quote mark: the datum that it wraps is behind it. -/
theorem exists_readDatum_quote (rounds : Nat) (hexpr : ∀ after, after <:+ '\x27' :: rest →
      after.length < ('\x27' :: rest).length → ReadsExpr cs file after) (h : '\x27' :: rest <:+ cs)
    (hrounds : 3 * ('\x27' :: rest).length ≤ rounds) :
    ∃ outcome, readDatum cs file (rounds + 1) (.before cs ('\x27' :: rest)) = ends cs file outcome
      ∧ Reads ('\x27' :: rest) (IntoOpen ('\x27' :: rest)) outcome := by
  rw [List.length_cons] at hrounds
  have hrest := List.suffix_cons '\x27' rest
  obtain ⟨outcome, hread, hreads⟩ := hexpr rest hrest (Nat.lt_succ_self _) rounds (by omega)
  -- the reader reads one expression and puts the quotation around it
  have hdatum : readDatum cs file (rounds + 1) (.before cs ('\x27' :: rest))
      = (readExpr cs file rounds >>= fun datum => pure (Reading.quoteForm datum))
          (.before cs rest) := by
    rw [readDatum, ifAtEnd_cons h, bind_of_ok (peek_before h), if_neg (by decide),
      if_neg (by decide), if_pos rfl, bind_of_ok (advance_before h)]
  -- a closing parenthesis is not expected after a quote mark
  have hquoted : ∀ outer, IntoOpen rest (.quoted :: outer) (.quoted :: outer) :=
    fun outer => ⟨rfl, fun _ _ _ _ _ => nofun⟩
  cases hreads with
  | fault hsuffix hnext =>
    refine ⟨_, hdatum.trans (bind_of_error hread _), .fault (hsuffix.trans hrest) ?_⟩
    rintro outer _ ⟨rfl, -⟩
    rw [tokenize_quoteMark]
    exact hnext _ _ (hquoted outer)
  | value hafter hless hnext =>
    refine ⟨_, hdatum.trans (bind_of_ok hread _),
      .value (hafter.trans hrest) (Nat.lt_succ_of_lt hless) ?_⟩
    rintro outer _ ⟨rfl, -⟩
    rw [tokenize_quoteMark]
    exact hnext _ _ (hquoted outer)

/-- **The expression at a word**, given those further on. -/
theorem exists_readDatum (rounds : Nat) (hexpr : ∀ after, after <:+ rest →
      after.length < rest.length → ReadsExpr cs file after) (h : rest <:+ cs)
    (hbegins : Begins rest) (hrounds : 3 * rest.length ≤ rounds) :
    ∃ outcome, readDatum cs file (rounds + 1) (.before cs rest) = ends cs file outcome
      ∧ Reads rest (IntoOpen rest) outcome := by
  -- only how the text begins matters
  induction rest using textInduction with
  | nil =>
    refine ⟨.error ⟨.unexpectedEnd, []⟩, ?_, .fault List.suffix_rfl ?_⟩
    · rw [readDatum, ifAtEnd_nil, bind_of_ok location_before, report_before]
    · rintro outer _ ⟨rfl, -⟩
      rw [tokenize_nil]
      rfl
  | blank c rest hblank =>
    -- a word is read by rounds of its own, one for each character
    have hword := (hbegins c rfl).1
    rw [hblank] at hword
    cases hword
  | comment rest => exact absurd rfl (hbegins ';' rfl).2
  | opening rest => exact exists_readDatum_list rounds hexpr h hrounds
  | closing rest =>
    refine ⟨.error ⟨.unexpectedToken (String.ofList [')']), ')' :: rest⟩, ?_,
      .fault List.suffix_rfl ?_⟩
    · rw [readDatum, ifAtEnd_cons h, bind_of_ok (peek_before h), if_neg (by decide), if_pos rfl,
        bind_of_ok location_before]
      rfl
    · rintro outer _ ⟨rfl, hexpects⟩
      rw [tokenize_closing] at hexpects ⊢
      -- the reading refuses it as well: nothing is open, or a quote mark waits for its datum
      rcases outer with _ | ⟨_ | reversed, outer⟩
      · rfl
      · rfl
      · exact absurd rfl (hexpects _ rfl rfl reversed outer)
  | quoteMark rest => exact exists_readDatum_quote rounds hexpr h hrounds
  | openString rest hscan =>
    rw [List.length_cons] at hrounds
    refine ⟨.error ⟨.unterminatedString, '\x22' :: rest⟩, ?_, .fault List.suffix_rfl ?_⟩
    · rw [readDatum_string h (by omega), hscan, stringOutcome]
    · rintro outer _ ⟨rfl, -⟩
      rw [tokenize_openString hscan]
      rfl
  | string rest text after hscan =>
    rw [List.length_cons] at hrounds
    have hafter : after <:+ rest := by
      obtain ⟨body, -, rfl⟩ := scanString_eq_some_iff.1 hscan
      exact (List.suffix_cons _ after).trans (List.suffix_append body _)
    refine ⟨.ok (.string (String.ofList text), after), ?_,
      .value (hafter.trans (List.suffix_cons _ rest)) (Nat.lt_succ_of_le hafter.length_le) ?_⟩
    · rw [readDatum_string h (by omega), hscan, stringOutcome, List.nil_append]
    · rintro outer _ ⟨rfl, -⟩
      rw [tokenize_string hscan]
      rfl
  | atom c rest hc =>
    have hafter := List.dropWhile_suffix (l := rest) isAtomChar
    have hword : (c :: rest).length < rounds := by
      rw [List.length_cons] at hrounds ⊢
      omega
    refine ⟨_, readDatum_atom h hc hword, ?_⟩
    -- the same test decides on both sides what the word stands for
    cases hatom : Reading.ofAtom (c :: rest.takeWhile isAtomChar) with
    | ok v =>
      refine .value (hafter.trans (List.suffix_cons c rest)) (Nat.lt_succ_of_le hafter.length_le) ?_
      rintro outer _ ⟨rfl, -⟩
      rw [tokenize_atom hc, next, Reading.step, hatom]
      rfl
    | error fault =>
      refine .fault List.suffix_rfl ?_
      rintro outer _ ⟨rfl, -⟩
      rw [tokenize_atom hc, next, Reading.step, hatom]
      rfl

/-- **Every expression takes some of the text, or is refused**: from every place in the text,
reading one comes to an end. -/
theorem readsExpr (file : Option String) (h : rest <:+ cs) : ReadsExpr cs file rest := by
  -- By the length of what is left. What stands inside an expression is shorter than the expression,
  -- so three rounds for each character are enough at any nesting.
  induction hlength : rest.length using Nat.strongRecOn generalizing rest with
  | ind n ih =>
    intro rounds hrounds
    obtain ⟨rounds, rfl⟩ := Nat.exists_eq_add_of_le' (Nat.le_of_add_left_le hrounds)
    obtain ⟨after, hafter, hbegins, hsame, hskip⟩ := exists_skip (rounds + 1) h (by omega)
    have hlength' := hafter.length_le
    -- what begins inside the datum is shorter than it
    have hshorter : ∀ text, text <:+ after → text.length < after.length →
        ReadsExpr cs file text := fun text htext hless =>
      ih text.length (by omega) ((htext.trans hafter).trans h) rfl
    obtain ⟨outcome, hread, hreads⟩ :=
      exists_readDatum rounds hshorter (hafter.trans h) hbegins (by omega)
    refine ⟨outcome, ?_, hreads.of_steps hafter ?_⟩
    · rw [readExpr, bind_of_ok hskip, hread]
    · rintro outer _ ⟨rfl, hexpects⟩
      exact ⟨outer, ⟨rfl, hsame ▸ hexpects⟩, by rw [hsame]⟩

/-! ### Whole texts -/

/-- The expressions of a reading that has come to the end of the text. -/
def conclude : Except Misread Reading → Except Misread (List Value)
  | .ok ⟨finished, []⟩ => .ok finished.reverse
  | .ok _ => .error ⟨.unexpectedEnd, []⟩
  | .error misread => .error misread

theorem readAll_eq_conclude (cs : List Char) :
    Source.readAll cs = conclude (run .start (tokenize cs)) := by
  rw [Source.readAll]
  rcases run .start (tokenize cs) with misread | ⟨finished, _ | _⟩ <;> rfl

/-- **Reading all expressions is reading the first one and then the others**, if there is one. -/
theorem conclude_run (finished : List Value) (pending : List Pending) {ls : List Lexeme}
    (h : pending ≠ [] ∨ ls ≠ []) :
    conclude (run ⟨finished, pending⟩ ls)
      = match next ⟨[], pending⟩ ls with
        | .ok (v, more) => conclude (run ⟨v :: finished, []⟩ more)
        | .error m => .error m := by
  induction ls generalizing pending with
  | nil =>
    obtain ⟨first, pending, rfl⟩ := List.exists_cons_of_ne_nil (h.resolve_right fun hls => hls rfl)
    rfl
  | cons l ls ih =>
    -- what was finished before plays no part in a step
    have hstep := step_onto finished ⟨[], pending⟩ l.token
    have honto : Reading.onto finished ⟨[], pending⟩ = ⟨finished, pending⟩ := rfl
    rw [run, ← honto, hstep, next]
    cases hfirst : Reading.step ⟨[], pending⟩ l.token with
    | error fault => rfl
    | ok r =>
      rcases step_cases hfirst with ⟨pending, hopen, rfl⟩ | ⟨w, rfl⟩
      · exact ih _ (.inl hopen)
      · cases ls <;> rfl

/-- One finished value is all that is looked for. -/
theorem next_finished (v : Value) (ls : List Lexeme) : next ⟨[v], []⟩ ls = .ok (v, ls) := by
  cases ls <;> rfl

/-- **The loop over expressions** comes to the end of the text, or to a fault. -/
theorem exists_readRest (rounds : Nat) (file : Option String) (h : rest <:+ cs)
    (hbegins : Begins rest) (hrounds : 3 * rest.length + 3 ≤ rounds) (finished : List Value) :
    ∃ outcome, readRest cs file rounds finished (.before cs rest) = ends cs file outcome
      ∧ outcome.map Prod.fst = conclude (run ⟨finished.reverse, []⟩ (tokenize rest)) := by
  induction rounds generalizing rest finished with
  | zero => exact absurd hrounds (by omega)
  | succ rounds ih =>
    cases rest with
    | nil =>
      refine ⟨.ok (finished, []), ?_, ?_⟩
      · rw [readRest, ifAtEnd_nil]
        rfl
      · rw [tokenize_nil]
        exact congrArg Except.ok (List.reverse_reverse finished).symm
    | cons c rest =>
      rw [readRest, ifAtEnd_cons h]
      obtain ⟨token, ls, htokens, -⟩ := exists_lexeme hbegins
      have hsplit := conclude_run finished.reverse []
        (.inr (htokens ▸ List.cons_ne_nil _ _))
      -- at the top level nothing is open, so nothing waits for a closing parenthesis
      have hexpects : Expects [] (tokenize (c :: rest)) := fun _ _ _ _ _ => nofun
      obtain ⟨outcome, hread, hreads⟩ := readsExpr file h rounds (by omega)
      cases hreads with
      | @fault m hsuffix hnext =>
        refine ⟨.error m, bind_of_error hread _, ?_⟩
        rw [hsplit, hnext [] [] ⟨rfl, hexpects⟩]
        rfl
      -- one more value is finished, and the induction hypothesis reads the rest behind it
      | @value v after hafter hless hnext =>
        obtain ⟨later, hlater, hlaterBegins, hsame, hskip⟩ :=
          exists_skip rounds (hafter.trans h) (by omega)
        have hshorter := hlater.length_le
        obtain ⟨outcome, hmore, hvalues⟩ := ih ((hlater.trans hafter).trans h) hlaterBegins
          (by omega) (finished ++ [v])
        rw [bind_of_ok hread, bind_of_ok hskip]
        refine ⟨outcome, hmore, ?_⟩
        rw [hvalues, hsplit, hnext [] [] ⟨rfl, hexpects⟩, Reading.place, next_finished, hsame,
          List.reverse_append]
        rfl

theorem exists_readAll (file : Option String) {rounds : Nat}
    (hrounds : 3 * cs.length + 3 ≤ rounds) :
    ∃ outcome, readAll cs file rounds .start = ends cs file outcome
      ∧ outcome.map Prod.fst = Source.readAll cs := by
  obtain ⟨after, hafter, hbegins, hsame, hskip⟩ :=
    exists_skip rounds (List.suffix_rfl (l := cs)) (by omega)
  have hshorter := hafter.length_le
  obtain ⟨outcome, hread, hvalues⟩ := exists_readRest rounds file hafter hbegins (by omega) []
  rw [Cursor.start_eq_before cs, readAll, bind_of_ok hskip]
  exact ⟨outcome, hread, by rw [hvalues, hsame, readAll_eq_conclude]; rfl⟩

theorem expectEnd_nil {rounds : Nat}
    (hskip : skip cs rounds (.before cs rest) = some (.ok ((), .before cs []))) :
    expectEnd cs file rounds (.before cs rest) = some (.ok ((), .before cs [])) := by
  rw [expectEnd, bind_of_ok hskip, ifAtEnd_nil]
  rfl

theorem expectEnd_cons {rounds : Nat} {c : Char} {later : List Char} (h : c :: later <:+ cs)
    (hskip : skip cs rounds (.before cs rest) = some (.ok ((), .before cs (c :: later)))) :
    expectEnd cs file rounds (.before cs rest) = some (.error (.failure (Misread.failure
      ⟨.unexpectedToken (String.ofList [c]), c :: later⟩ cs file))) := by
  rw [expectEnd, bind_of_ok hskip, ifAtEnd_cons h, bind_of_ok (peek_before h),
    bind_of_ok location_before]
  rfl

theorem exists_readSingle (file : Option String) {rounds : Nat}
    (hrounds : 3 * cs.length + 3 ≤ rounds) :
    ∃ outcome, readSingle cs file rounds .start = ends cs file outcome
      ∧ outcome.map Prod.fst = Source.readSingle cs := by
  obtain ⟨outcome, hread, hreads⟩ := readsExpr file (List.suffix_rfl (l := cs)) rounds (by omega)
  have hexpects : Expects [] (tokenize cs) := fun _ _ _ _ _ => nofun
  rw [Cursor.start_eq_before cs, readSingle, Source.readSingle, Reading.start]
  cases hreads with
  | @fault m hsuffix hnext =>
    rw [hnext [] [] ⟨rfl, hexpects⟩]
    exact ⟨.error m, bind_of_error hread _, rfl⟩
  | @value v after hafter hless hnext =>
    rw [hnext [] [] ⟨rfl, hexpects⟩, Reading.place, next_finished, bind_of_ok hread]
    obtain ⟨later, hlater, hbegins, hsame, hskip⟩ := exists_skip rounds hafter (by omega)
    rw [← hsame]
    -- the text has to end behind the expression, up to blanks and comments
    cases later with
    | nil =>
      refine ⟨.ok (v, []), bind_of_ok (expectEnd_nil hskip) _, ?_⟩
      rw [tokenize_nil]
      rfl
    | cons c later =>
      obtain ⟨token, ls, htokens, -⟩ := exists_lexeme hbegins
      rw [htokens]
      exact ⟨.error ⟨_, _⟩, bind_of_error (expectEnd_cons (hlater.trans hafter) hskip) _, rfl⟩

/-- What a new reader does, told by the rest of the text. -/
theorem fromStart_eq {α : Type} {x : Reader α} {outcome : Except Misread (α × List Char)}
    (h : x .start = ends cs file outcome) :
    fromStart x = some (((outcome.map Prod.fst).mapError fun m => m.failure cs file).mapError
      Stop.failure) := by
  rw [fromStart, h]
  rcases outcome with m | ⟨a, rest⟩ <;> rfl

section

variable {source : String} {rounds : Nat}

/-- **Reading by recursive descent is reading**: it comes to an end, with the same values or the
same failure. -/
theorem read_eq (file : Option String) (h : 3 * source.toList.length + 3 ≤ rounds) :
    read rounds source file = some ((Source.read source file).mapError Stop.failure) := by
  obtain ⟨outcome, hread, hvalues⟩ := exists_readAll file h
  rw [read, fromStart_eq hread, hvalues]
  rfl

theorem readOne_eq (file : Option String) (h : 3 * source.toList.length + 3 ≤ rounds) :
    readOne rounds source file = some ((Source.readOne source file).mapError Stop.failure) := by
  obtain ⟨outcome, hread, hvalue⟩ := exists_readSingle file h
  rw [readOne, fromStart_eq hread, hvalue]
  rfl

theorem isComplete_eq (h : 3 * source.toList.length + 3 ≤ rounds) :
    isComplete rounds source = some (.ok (Source.isComplete source.toList)) := by
  rw [isComplete, read_eq none h, Source.read, Source.isComplete]
  cases Source.readAll source.toList <;> rfl

end

theorem exists_readFault_of_mapError {α : Type} {x : Except Misread α} {failure : Failure}
    (h : x.mapError (fun m => m.failure cs file) = .error failure) :
    ∃ fault place, failure = .read fault (some place) := by
  cases x with
  | ok a => cases h
  | error m =>
    cases h
    exact ⟨_, _, rfl⟩

/-- A reader at any place of its text: reading an expression there comes to an end, further on and
not behind the text, or with a fault at a place of the text. -/
theorem readExpr_progresses (file : Option String) {position rounds : Nat}
    (h : position ≤ cs.length) (hrounds : 3 * cs.length + 3 ≤ rounds) :
    (∃ v next, position < next ∧ next ≤ cs.length
      ∧ readExpr cs file rounds (.after (cs.take position))
        = some (.ok (v, .after (cs.take next))))
    ∨ ∃ fault place, position ≤ place ∧ place ≤ cs.length
      ∧ readExpr cs file rounds (.after (cs.take position))
        = some (.error (.failure (.read fault (some (locate (cs.take place) file))))) := by
  -- an offset into the text is a cursor before the rest of it
  have hposition : Cursor.after (cs.take position) = .before cs (cs.drop position) := by
    rw [Cursor.before, List.length_drop, Nat.sub_sub_self h]
  have hlength : (cs.drop position).length = cs.length - position := List.length_drop
  obtain ⟨outcome, hread, hreads⟩ :=
    readsExpr file (List.drop_suffix position cs) rounds (by omega)
  rw [hposition, hread]
  cases hreads with
  | @value v after hafter hless hnext =>
    exact .inl ⟨v, cs.length - after.length, by omega, Nat.sub_le _ _, rfl⟩
  | @fault m hsuffix hnext =>
    have hplace := hsuffix.length_le
    exact .inr ⟨m.fault, cs.length - m.rest.length, by omega, Nat.sub_le _ _, rfl⟩

/-- **The reader always goes on and never leaves its text.** Whatever the text and wherever in it a
reader is, reading an expression comes to an end: with a value, further on but not behind the text,
or with one of the read faults, at a place of the text. It never inspects what is not in the text
and never reads an empty atom, which would be other ways to stop. So `read`, `readOne` and
`isComplete` come to an end on every text, with what the definitions of these names say, and `read`
and `readOne` report read faults only. All of this takes no more than three rounds for each
character, and three more. -/
theorem read_progresses (source : String) (file : Option String) {rounds : Nat}
    (h : 3 * source.toList.length + 3 ≤ rounds) :
    (∀ position ≤ source.toList.length,
      (∃ v next, position < next ∧ next ≤ source.toList.length
        ∧ readExpr source.toList file rounds (.after (source.toList.take position))
          = some (.ok (v, .after (source.toList.take next))))
      ∨ ∃ fault place, position ≤ place ∧ place ≤ source.toList.length
        ∧ readExpr source.toList file rounds (.after (source.toList.take position))
          = some (.error (.failure (.read fault
              (some (locate (source.toList.take place) file))))))
    ∧ read rounds source file = some ((Source.read source file).mapError Stop.failure)
    ∧ readOne rounds source file = some ((Source.readOne source file).mapError Stop.failure)
    ∧ isComplete rounds source = some (.ok (Source.isComplete source.toList))
    ∧ (∀ failure, Source.read source file = .error failure →
        ∃ fault place, failure = .read fault (some place))
    ∧ ∀ failure, Source.readOne source file = .error failure →
        ∃ fault place, failure = .read fault (some place) :=
  ⟨fun _ hposition => readExpr_progresses file hposition h, read_eq file h, readOne_eq file h,
    isComplete_eq h, fun _ hread => exists_readFault_of_mapError hread,
    fun _ hone => exists_readFault_of_mapError hone⟩

/-- A text with a datum, a list that is left open, and in it a string that is never closed. -/
theorem read_progresses_open : ∃ failure other,
    3 * "'a (b \"c".toList.length + 3 ≤ 30 ∧ 3 ≤ "'a (b \"c".toList.length
    ∧ ((∃ v next, 3 < next ∧ next ≤ "'a (b \"c".toList.length
        ∧ readExpr "'a (b \"c".toList none 30 (.after ("'a (b \"c".toList.take 3))
          = some (.ok (v, .after ("'a (b \"c".toList.take next))))
      ∨ ∃ fault place, 3 ≤ place ∧ place ≤ "'a (b \"c".toList.length
        ∧ readExpr "'a (b \"c".toList none 30 (.after ("'a (b \"c".toList.take 3))
          = some (.error (.failure (.read fault
              (some (locate ("'a (b \"c".toList.take place) none))))))
    ∧ Source.read "'a (b \"c" none = .error failure
    ∧ Source.readOne "'a (b \"c" none = .error other
    ∧ read 30 "'a (b \"c" none = some (.error (.failure failure))
    ∧ readOne 30 "'a (b \"c" none = some (.error (.failure other))
    ∧ isComplete 30 "'a (b \"c" = some (.ok false)
    ∧ (∃ fault place, failure = .read fault (some place))
    ∧ ∃ fault place, other = .read fault (some place) := by
  have hrounds : 3 * "'a (b \"c".toList.length + 3 ≤ 30 := by decide
  obtain ⟨hexpr, hread, hone, hcomplete, hreads, hones⟩ :=
    read_progresses "'a (b \"c" none hrounds
  -- the string is never closed; the place is that of its opening quote
  have hfailure : Source.read "'a (b \"c" none
      = .error (.read .unterminatedString (some ⟨1, 7, none⟩)) := by cbv
  -- one datum is read, and the token behind it is reported
  have hother : Source.readOne "'a (b \"c" none
      = .error (.read (.unexpectedToken "(") (some ⟨1, 4, none⟩)) := by cbv
  have hopen : Source.isComplete "'a (b \"c".toList = false := by cbv
  rw [hfailure] at hread
  rw [hother] at hone
  rw [hopen] at hcomplete
  exact ⟨_, _, hrounds, by decide, hexpr 3 (by decide), hfailure, hother, hread, hone, hcomplete,
    hreads _ hfailure, hones _ hother⟩

end SmallLisp.Source.Descent
