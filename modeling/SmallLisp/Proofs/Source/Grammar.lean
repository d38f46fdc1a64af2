import SmallLisp.Proofs.Number.Numeral
import SmallLisp.Proofs.Source.Lexemes
import SmallLisp.Proofs.Traversal

/-!
# The grammar of programs

Two levels say what a program is, without any reader:

* `Cut cs tokens` — the text consists of these tokens and of blanks and comments around them, where
  atoms and comments go on as far as they can;
* `Data tokens vs` — the tokens are a sequence of data, which denote the values.

`read` accepts exactly the texts of this grammar and answers with the values that it gives them
(`read_eq_ok_iff`).

The lower level is compared with `tokenize` one word at a time. The upper level has to be compared
with a pass over the tokens that never looks back, so the invariant is about what the pass has read
so far (`Covers`): finished data, and after them for each open list its opening mark and finished
data, for each waiting quote its mark.
-/

namespace SmallLisp.Source

open Text

/-! ### Tokens in a text -/

/-- What stands between the quotes of a string, and the text that it denotes. -/
inductive StringBody : List Char → List Char → Prop where
  | nil : StringBody [] []
  /-- A character that is neither a quote nor a backslash stands for itself. -/
  | plain {c : Char} {body text : List Char} : c ≠ '\x22' → c ≠ '\x5c' → StringBody body text →
      StringBody (c :: body) (c :: text)
  /-- A backslash may stand before any character. -/
  | escaped {c : Char} {body text : List Char} : StringBody body text →
      StringBody ('\x5c' :: c :: body) (unescape c :: text)

/-- The characters of a token. A string that is never closed is no token of a program. -/
inductive Spelling : Token → List Char → Prop where
  | opening : Spelling .opening ['(']
  | closing : Spelling .closing [')']
  | quoteMark : Spelling .quoteMark ['\x27']
  | string {body text : List Char} : StringBody body text →
      Spelling (.string text) ('\x22' :: (body ++ ['\x22']))
  | atom {word : List Char} : word ≠ [] → (∀ c ∈ word, isAtomChar c = true) →
      Spelling (.atom word) word

/-- Whether a token can end before the given text: an atom has to take every character that it
can. -/
def Token.EndsBefore (rest : List Char) : Token → Prop
  | .atom _ => ∀ c ∈ rest.head?, isAtomChar c = false
  | _ => True

/-- The ways in which a text is cut into tokens. -/
inductive Cut : List Char → List Token → Prop where
  | done : Cut [] []
  | blank {c : Char} {rest : List Char} {tokens : List Token} : isBlank c = true →
      Cut rest tokens → Cut (c :: rest) tokens
  /-- A comment ends before a line feed or at the end of the text. -/
  | comment {text rest : List Char} {tokens : List Token} : '\n' ∉ text →
      (∀ c ∈ rest.head?, c = '\n') → Cut rest tokens → Cut (';' :: (text ++ rest)) tokens
  | token {token : Token} {word rest : List Char} {tokens : List Token} : Spelling token word →
      token.EndsBefore rest → Cut rest tokens → Cut (word ++ rest) (token :: tokens)

/-! ### Data in a sequence of tokens -/

/-- The value of an atom. -/
inductive AtomValue : List Char → Value → Prop where
  | true {text : List Char} : text = "#t".toList ∨ text = "#true".toList →
      AtomValue text (.boolean Bool.true)
  | false {text : List Char} : text = "#f".toList ∨ text = "#false".toList →
      AtomValue text (.boolean Bool.false)
  | number {text : List Char} {x : Float} : Number.Numeral text x → AtomValue text (.num x)
  | symbol {text : List Char} : text.head? ≠ some '#' → (∀ x, ¬ Number.Numeral text x) →
      AtomValue text (.symbol (String.ofList text))

mutual

/-- The tokens of one datum and its value. -/
inductive Datum : List Token → Value → Prop where
  | string {text : List Char} : Datum [.string text] (.string (String.ofList text))
  | atom {text : List Char} {v : Value} : AtomValue text v → Datum [.atom text] v
  | quoted {tokens : List Token} {v : Value} : Datum tokens v →
      Datum (.quoteMark :: tokens) (.ofList [.symbol "quote", v])
  | list {tokens : List Token} {vs : List Value} : Data tokens vs →
      Datum (.opening :: (tokens ++ [.closing])) (.ofList vs)

/-- The tokens of several data and their values. -/
inductive Data : List Token → List Value → Prop where
  | nil : Data [] []
  | cons {first rest : List Token} {v : Value} {vs : List Value} : Datum first v → Data rest vs →
      Data (first ++ rest) (v :: vs)

end

/-! ### Cutting a text -/

variable {cs : List Char} {tokens : List Token}

/-- The closed strings of a text. -/
theorem scanString_eq_some_iff {text rest : List Char} :
    scanString cs = some (text, rest)
      ↔ ∃ body, StringBody body text ∧ cs = body ++ '\x22' :: rest := by
  constructor
  · intro h
    induction cs using scanString.induct generalizing text with
    | case1 => cases h
    | case2 tail =>
      cases h
      exact ⟨[], .nil, rfl⟩
    | case3 c tail ih =>
      rw [scanString] at h
      obtain ⟨⟨inner, after⟩, hscan, heq⟩ := Option.map_eq_some_iff.1 h
      cases heq
      obtain ⟨body, hbody, rfl⟩ := ih hscan
      exact ⟨_, .escaped hbody, rfl⟩
    | case4 c tail hquote hescape ih =>
      rcases plain_or_dangling hescape with hplain | ⟨rfl, rfl⟩
      · rw [scanString_plain hquote hplain] at h
        obtain ⟨⟨inner, after⟩, hscan, heq⟩ := Option.map_eq_some_iff.1 h
        cases heq
        obtain ⟨body, hbody, rfl⟩ := ih hscan
        exact ⟨_, .plain hquote hplain hbody, rfl⟩
      · -- a backslash at the end of the text escapes nothing, and the string stays open
        cases h
  · rintro ⟨body, hbody, rfl⟩
    -- the scanner follows the body character by character
    induction hbody with
    | nil => rfl
    | plain hquote hescape _ ih =>
      rw [List.cons_append, scanString_plain hquote hescape, ih]
      rfl
    | escaped _ ih =>
      rw [List.cons_append, List.cons_append, scanString, ih]
      rfl

/-- What stands between a semicolon and the end of its line, and what follows. -/
theorem cut_comment {rest : List Char} (h : Cut (rest.dropWhile (· ≠ '\n')) tokens) :
    Cut (';' :: rest) tokens := by
  have htext : '\n' ∉ rest.takeWhile (· ≠ '\n') := by
    intro hmem
    have hne := List.all_eq_true.1 List.all_takeWhile _ hmem
    simp at hne
  -- the comment goes up to a newline or to the end of the text
  have hrest : ∀ c ∈ (rest.dropWhile (· ≠ '\n')).head?, c = '\n' := by
    intro c hc
    have hstop := List.head?_dropWhile_not (· ≠ '\n') rest
    rw [Option.mem_def.1 hc] at hstop
    simpa using hstop
  have hcut := Cut.comment htext hrest h
  rwa [List.takeWhile_append_dropWhile] at hcut

/-- The longest atom at the start of a text is an atom, and it ends where it has to. -/
theorem spelling_atom {c : Char} (hc : isAtomChar c = true) (rest : List Char) :
    Spelling (.atom (c :: rest.takeWhile isAtomChar)) (c :: rest.takeWhile isAtomChar) ∧
      (Token.atom (c :: rest.takeWhile isAtomChar)).EndsBefore (rest.dropWhile isAtomChar) := by
  have hword : ∀ d ∈ c :: rest.takeWhile isAtomChar, isAtomChar d = true :=
    List.forall_mem_cons.2 ⟨hc, fun d hd => List.all_eq_true.1 List.all_takeWhile d hd⟩
  refine ⟨.atom (List.cons_ne_nil _ _) hword, fun d hd => ?_⟩
  have hnot := List.head?_dropWhile_not isAtomChar rest
  rw [Option.mem_def.1 hd] at hnot
  simpa using hnot

/-- An atom in front of the text after it. -/
theorem cut_atom {c : Char} {rest : List Char} (hc : isAtomChar c = true)
    (h : Cut (rest.dropWhile isAtomChar) tokens) :
    Cut (c :: rest) (.atom (c :: rest.takeWhile isAtomChar) :: tokens) := by
  obtain ⟨hword, hstop⟩ := spelling_atom hc rest
  have hcut := Cut.token hword hstop h
  rwa [List.cons_append, List.takeWhile_append_dropWhile] at hcut

/-- Without an open string the lexemes of a text are a way to cut it. -/
theorem cut_tokenize (h : Token.openString ∉ (tokenize cs).map Lexeme.token) :
    Cut cs ((tokenize cs).map Lexeme.token) := by
  induction cs using textInduction with
  | nil =>
    rw [tokenize_nil]
    exact .done
  | blank c rest hblank ih =>
    rw [tokenize_blank hblank] at h ⊢
    exact .blank hblank (ih h)
  -- a comment is cut off up to the newline, not including it
  | comment rest ih =>
    rw [tokenize_comment] at h ⊢
    exact cut_comment (ih h)
  | opening rest ih =>
    rw [tokenize_opening] at h ⊢
    exact .token .opening trivial (ih (List.not_mem_of_not_mem_cons h))
  | closing rest ih =>
    rw [tokenize_closing] at h ⊢
    exact .token .closing trivial (ih (List.not_mem_of_not_mem_cons h))
  | quoteMark rest ih =>
    rw [tokenize_quoteMark] at h ⊢
    exact .token .quoteMark trivial (ih (List.not_mem_of_not_mem_cons h))
  -- the text has an open string, which is what the hypothesis excludes
  | openString rest hscan =>
    rw [tokenize_openString hscan] at h
    exact absurd List.mem_cons_self h
  | string rest text after hscan ih =>
    rw [tokenize_string hscan] at h ⊢
    obtain ⟨body, hbody, rfl⟩ := scanString_eq_some_iff.1 hscan
    have hcut := Cut.token (.string hbody) trivial (ih (List.not_mem_of_not_mem_cons h))
    rwa [List.cons_append, List.append_assoc] at hcut
  -- the word is as long as it can be, which is what makes the cut unique
  | atom c rest hc ih =>
    rw [tokenize_atom hc] at h ⊢
    exact cut_atom hc (ih (List.not_mem_of_not_mem_cons h))

/-- The first lexeme of a text that begins with a token. -/
theorem exists_tokenize_spelling {token : Token} {word rest : List Char}
    (hword : Spelling token word) (hend : token.EndsBefore rest) :
    ∃ l, tokenize (word ++ rest) = l :: tokenize rest ∧ l.token = token := by
  cases hword with
  | opening => exact ⟨_, tokenize_opening rest, rfl⟩
  | closing => exact ⟨_, tokenize_closing rest, rfl⟩
  | quoteMark => exact ⟨_, tokenize_quoteMark rest, rfl⟩
  | @string body text hbody =>
    have hscan : scanString (body ++ ['\x22'] ++ rest) = some (text, rest) :=
      scanString_eq_some_iff.2 ⟨body, hbody, by rw [List.append_assoc]; rfl⟩
    exact ⟨_, tokenize_string hscan, rfl⟩
  | atom hne hword =>
    obtain ⟨c, word, rfl⟩ := List.exists_cons_of_ne_nil hne
    obtain ⟨hc, hrest⟩ := List.forall_mem_cons.1 hword
    have hstop : rest.takeWhile isAtomChar = [] ∧ rest.dropWhile isAtomChar = rest := by
      cases rest with
      | nil => exact ⟨rfl, rfl⟩
      | cons d rest =>
        have hd : ¬ isAtomChar d = true := by simp [hend d rfl]
        exact ⟨List.takeWhile_cons_of_neg hd, List.dropWhile_cons_of_neg hd⟩
    -- the reader takes all of the word, and nothing of the text after it
    have htokenize := tokenize_atom hc (word ++ rest)
    rw [List.takeWhile_append_of_pos hrest, List.dropWhile_append_of_pos hrest, hstop.1, hstop.2,
      List.append_nil] at htokenize
    exact ⟨_, htokenize, rfl⟩

/-- However a text is cut, the tokens are those of its lexemes. -/
theorem map_token_tokenize_of_cut (h : Cut cs tokens) :
    (tokenize cs).map Lexeme.token = tokens := by
  induction h with
  | done => rw [tokenize_nil, List.map_nil]
  | blank hblank _ ih => rw [tokenize_blank hblank, ih]
  | @comment text rest tokens htext hrest _ ih =>
    have hline : ∀ c ∈ text, decide (c ≠ '\n') = true := by
      intro c hc
      exact decide_eq_true (ne_of_mem_of_not_mem hc htext)
    have hstop : rest.dropWhile (· ≠ '\n') = rest := by
      cases rest with
      | nil => rfl
      | cons d rest => exact List.dropWhile_cons_of_neg (by simp [hrest d rfl])
    -- the reader skips a comment as far as the cut says that it goes
    rw [tokenize_comment, List.dropWhile_append_of_pos hline, hstop, ih]
  | token hword hend _ ih =>
    obtain ⟨l, htokenize, rfl⟩ := exists_tokenize_spelling hword hend
    rw [htokenize, List.map_cons, ih]

theorem openString_notMem_of_cut (h : Cut cs tokens) : Token.openString ∉ tokens := by
  induction h with
  | done => exact List.not_mem_nil
  | blank _ _ ih => exact ih
  | comment _ _ _ ih => exact ih
  | token hword _ _ ih =>
    refine List.not_mem_cons_of_ne_of_not_mem ?_ ih
    rintro rfl
    cases hword

/-- There is at most one way to cut a text: into its lexemes, if none of them is an open string. -/
theorem cut_iff :
    Cut cs tokens ↔ (tokenize cs).map Lexeme.token = tokens ∧ Token.openString ∉ tokens := by
  constructor
  · intro h
    exact ⟨map_token_tokenize_of_cut h, openString_notMem_of_cut h⟩
  · rintro ⟨rfl, h⟩
    exact cut_tokenize h

/-! ### Reading tokens -/

/-- Where the reading of lexemes ends depends on their tokens only. -/
theorem run_eq_ok_iff {r r' : Reading} {ls : List Lexeme} :
    run r ls = .ok r' ↔ (ls.map Lexeme.token).foldlM Reading.step r = .ok r' := by
  induction ls generalizing r with
  | nil =>
    rw [run, List.map_nil, List.foldlM_nil]
    exact ⟨fun h => congrArg Except.ok (Except.ok.inj h),
      fun h => congrArg Except.ok (Except.ok.inj h)⟩
  | cons l ls ih =>
    rw [run, List.map_cons, List.foldlM_cons]
    cases r.step l.token with
    | ok next => exact ih
    | error fault => exact ⟨nofun, nofun⟩

theorem readAll_eq_ok_iff {vs : List Value} :
    readAll cs = .ok vs
      ↔ ((tokenize cs).map Lexeme.token).foldlM Reading.step .start = .ok ⟨vs.reverse, []⟩ := by
  rw [← run_eq_ok_iff, readAll]
  constructor
  · intro h
    split at h
    · next heq =>
      cases h
      rw [List.reverse_reverse]
      exact heq
    · -- an error or an open form is not a success
      cases h
    · cases h
  · intro h
    rw [h]
    exact congrArg Except.ok (List.reverse_reverse vs)

theorem ofAtom_eq_ok_iff {text : List Char} {v : Value} :
    Reading.ofAtom text = .ok v ↔ AtomValue text v := by
  constructor
  · intro h
    unfold Reading.ofAtom at h
    split at h
    · split at h
      · next htext =>
        cases h
        exact .true htext
      · split at h
        · next htext =>
          cases h
          exact .false htext
        · cases h
    · -- no word with a hash sign in front is a number, so the order of the tests does not matter
      next hhash =>
      split at h
      · next x hx =>
        cases h
        exact .number (Number.ofNumeral?_eq_some_iff.1 hx)
      · next hnone =>
        cases h
        exact .symbol hhash (Number.ofNumeral?_eq_none_iff.1 hnone)
  · -- one way of reading a word excludes the others, so the reader takes the right one
    rintro (htext | htext | hnumber | ⟨hhash, hnone⟩)
    · rcases htext with rfl | rfl <;> rfl
    · rcases htext with rfl | rfl <;> rfl
    · have hhash : ¬ text.head? = some '#' := Number.Numeral.head?_ne hnumber
      rw [Reading.ofAtom, if_neg hhash, Number.ofNumeral?_eq_some_iff.2 hnumber]
    · rw [Reading.ofAtom, if_neg hhash, Number.ofNumeral?_eq_none_iff.2 hnone]

/-! ### All data are read -/

/-- One more datum is complete. -/
def Reading.add (r : Reading) (v : Value) : Reading :=
  .place r.finished v r.pending

theorem Reading.foldl_add_items (finished reversed vs : List Value) (pending : List Pending) :
    vs.foldl Reading.add ⟨finished, .items reversed :: pending⟩
      = ⟨finished, .items (vs.reverse ++ reversed) :: pending⟩ := by
  induction vs generalizing reversed with
  | nil => rfl
  | cons v vs ih =>
    rw [List.foldl_cons, List.reverse_cons, List.append_assoc]
    exact ih (v :: reversed)

theorem Reading.foldl_add_finished (finished vs : List Value) :
    vs.foldl Reading.add ⟨finished, []⟩ = ⟨vs.reverse ++ finished, []⟩ := by
  induction vs generalizing finished with
  | nil => rfl
  | cons v vs ih =>
    rw [List.foldl_cons, List.reverse_cons, List.append_assoc]
    exact ih (v :: finished)

mutual

theorem Datum.foldlM_step {tokens : List Token} {v : Value} :
    Datum tokens v → ∀ r : Reading, tokens.foldlM Reading.step r = .ok (r.add v)
  | .string, _ => rfl
  | .atom hatom, r => by
    rw [List.foldlM_cons, Reading.step, ofAtom_eq_ok_iff.2 hatom]
    rfl
  | .quoted hdatum, r => hdatum.foldlM_step ⟨r.finished, .quoted :: r.pending⟩
  | @Datum.list tokens vs hdata, r => by
    -- the opening mark starts a list, the data fill it, and the closing mark completes it
    have hread := hdata.foldlM_step ⟨r.finished, .items [] :: r.pending⟩
    rw [Reading.foldl_add_items, List.append_nil] at hread
    have hopening : r.step .opening = .ok ⟨r.finished, .items [] :: r.pending⟩ := rfl
    have hclosing : Reading.step ⟨r.finished, .items vs.reverse :: r.pending⟩ .closing
        = .ok (r.add (.ofList vs)) := by
      change Except.ok (Reading.place r.finished (.ofList vs.reverse.reverse) r.pending) = _
      rw [List.reverse_reverse]
      rfl
    rw [List.foldlM_cons]
    refine bind_eq_ok_iff.2 ⟨_, hopening, ?_⟩
    rw [List.foldlM_append]
    refine bind_eq_ok_iff.2 ⟨_, hread, ?_⟩
    rw [List.foldlM_cons]
    exact bind_eq_ok_iff.2 ⟨_, hclosing, rfl⟩

theorem Data.foldlM_step {tokens : List Token} {vs : List Value} :
    Data tokens vs → ∀ r : Reading, tokens.foldlM Reading.step r = .ok (vs.foldl Reading.add r)
  | .nil, _ => rfl
  | .cons hfirst hrest, r => by
    rw [List.foldlM_append, List.foldl_cons]
    exact bind_eq_ok_iff.2 ⟨_, hfirst.foldlM_step r, hrest.foldlM_step _⟩

end

/-! ### Only data are read -/

theorem Data.append {tokens more : List Token} {vs ws : List Value} :
    Data tokens vs → Data more ws → Data (tokens ++ more) (vs ++ ws)
  | .nil, hmore => hmore
  | .cons hfirst hrest, hmore => by
    rw [List.append_assoc]
    exact .cons hfirst (hrest.append hmore)

theorem Data.snoc {first : List Token} {v : Value} {vs : List Value} (h : Data tokens vs)
    (hfirst : Datum first v) : Data (tokens ++ first) (vs ++ [v]) := by
  have hone := Data.cons hfirst .nil
  rw [List.append_nil] at hone
  exact h.append hone

/-- What a reading has read so far: finished data, and then for everything that is open its mark
and, in a list, the data read in it. -/
inductive Covers : List Token → Reading → Prop where
  | finished {tokens : List Token} {reversed : List Value} : Data tokens reversed.reverse →
      Covers tokens ⟨reversed, []⟩
  | quoted {tokens : List Token} {finished : List Value} {pending : List Pending} :
      Covers tokens ⟨finished, pending⟩ →
      Covers (tokens ++ [.quoteMark]) ⟨finished, .quoted :: pending⟩
  | items {tokens inner : List Token} {finished reversed : List Value} {pending : List Pending} :
      Covers tokens ⟨finished, pending⟩ → Data inner reversed.reverse →
      Covers (tokens ++ .opening :: inner) ⟨finished, .items reversed :: pending⟩

/-- A datum that becomes complete joins what is finished or the list that waits for it, and with all
quote marks before it. -/
theorem covers_add {first : List Token} {v : Value} {r : Reading} (h : Covers tokens r)
    (hfirst : Datum first v) : Covers (tokens ++ first) (r.add v) := by
  induction h generalizing first v with
  | finished hdata =>
    refine .finished ?_
    rw [List.reverse_cons]
    exact hdata.snoc hfirst
  -- the datum is complete with its quote mark, and goes on to what is outside
  | quoted _ ih =>
    rw [List.append_assoc]
    exact ih (.quoted hfirst)
  -- the datum is added to the innermost open list
  | items hcovers hdata =>
    rw [List.append_assoc, List.cons_append]
    refine .items hcovers ?_
    rw [List.reverse_cons]
    exact hdata.snoc hfirst

theorem covers_step {token : Token} {r r' : Reading} (h : Covers tokens r)
    (hstep : r.step token = .ok r') : Covers (tokens ++ [token]) r' := by
  cases token with
  | opening =>
    cases hstep
    exact .items h .nil
  | quoteMark =>
    cases hstep
    exact .quoted h
  | closing =>
    -- only a list can be closed, not a quote that waits for its datum
    cases h with
    | finished => cases hstep
    | quoted => cases hstep
    | items hcovers hdata =>
      cases hstep
      rw [List.append_assoc]
      exact covers_add hcovers (.list hdata)
  | string text =>
    cases hstep
    exact covers_add h .string
  | atom text =>
    obtain ⟨v, hv, rfl⟩ := map_eq_ok_iff.1 hstep
    exact covers_add h (.atom (ofAtom_eq_ok_iff.1 hv))
  | openString => cases hstep

theorem covers_run {more : List Token} {r r' : Reading} (h : Covers tokens r)
    (hrun : more.foldlM Reading.step r = .ok r') : Covers (tokens ++ more) r' := by
  induction more generalizing tokens r with
  | nil =>
    cases hrun
    rwa [List.append_nil]
  | cons token more ih =>
    rw [List.foldlM_cons] at hrun
    obtain ⟨next, hstep, hrest⟩ := bind_eq_ok_iff.1 hrun
    have hcovers := ih (covers_step h hstep) hrest
    rwa [List.append_assoc] at hcovers

/-- No reading goes past a string that is open. -/
theorem openString_notMem_of_run {r r' : Reading} (h : tokens.foldlM Reading.step r = .ok r') :
    Token.openString ∉ tokens := by
  induction tokens generalizing r with
  | nil => exact List.not_mem_nil
  | cons token tokens ih =>
    rw [List.foldlM_cons] at h
    obtain ⟨next, hstep, hrest⟩ := bind_eq_ok_iff.1 h
    refine List.not_mem_cons_of_ne_of_not_mem ?_ (ih hrest)
    rintro rfl
    cases hstep

/-- The tokens that are read from the start without anything left open are data. -/
theorem run_start_iff {vs : List Value} :
    tokens.foldlM Reading.step .start = .ok ⟨vs.reverse, []⟩ ↔ Data tokens vs := by
  constructor
  · intro h
    have hcovers := covers_run (.finished .nil) h
    rw [List.nil_append] at hcovers
    cases hcovers with
    | finished hdata => rwa [List.reverse_reverse] at hdata
  · intro h
    rw [h.foldlM_step, Reading.start, Reading.foldl_add_finished, List.append_nil]

/-- The place is looked for only when a text cannot be read. -/
theorem readAll_of_read {source : String} {file : Option String} {vs : List Value}
    (h : read source file = .ok vs) : readAll source.toList = .ok vs := by
  rw [read] at h
  cases hall : readAll source.toList with
  | ok ws =>
    rw [hall] at h
    cases h
    rfl
  | error misread =>
    rw [hall] at h
    cases h

/-- What is read are the data of the lexemes. -/
theorem data_of_read {source : String} {file : Option String} {vs : List Value}
    (h : read source file = .ok vs) : Data ((tokenize source.toList).map Lexeme.token) vs :=
  run_start_iff.1 (readAll_eq_ok_iff.1 (readAll_of_read h))

/-- **The reader accepts exactly its grammar** and answers with the values of the data. -/
theorem read_eq_ok_iff (source : String) (file : Option String) (vs : List Value) :
    read source file = .ok vs ↔ ∃ tokens, Cut source.toList tokens ∧ Data tokens vs := by
  -- the file is mentioned only where reading fails
  have hread : read source file = .ok vs ↔ readAll source.toList = .ok vs := by
    rw [read]
    cases readAll source.toList with
    | ok ws =>
      exact ⟨fun h => congrArg Except.ok (Except.ok.inj h),
        fun h => congrArg Except.ok (Except.ok.inj h)⟩
    | error misread => exact ⟨nofun, nofun⟩
  rw [hread, readAll_eq_ok_iff, run_start_iff]
  constructor
  · intro hdata
    -- an open string is refused, so there is none when reading succeeds
    have hclosed := openString_notMem_of_run (hdata.foldlM_step .start)
    exact ⟨_, cut_iff.2 ⟨rfl, hclosed⟩, hdata⟩
  · rintro ⟨tokens, hcut, hdata⟩
    obtain ⟨rfl, -⟩ := cut_iff.1 hcut
    exact hdata

/-- A list of a symbol, a string with three escapes, a decimal and a quoted symbol, before a
comment. -/
theorem read_eq_ok_iff_escapes :
    read "(f \"a\\tb\\\\c\\q\" -1.25 'x) ; note" none
      = .ok [.ofList [.symbol "f", .string "a\tb\\cq", .num (-1.25),
          .ofList [.symbol "quote", .symbol "x"]]] := by
  -- the string holds the characters themselves: a tab, a backslash and a plain `q`
  have htokens : (tokenize "(f \"a\\tb\\\\c\\q\" -1.25 'x) ; note".toList).map Lexeme.token
      = [.opening, .atom ['f'], .string "a\tb\\cq".toList, .atom "-1.25".toList, .quoteMark,
          .atom ['x'], .closing] := by decide +kernel
  -- the word is a numeral, not a symbol
  have hnumber : AtomValue "-1.25".toList (.num (-1.25)) :=
    .number (Number.ofNumeral?_eq_some_iff.1 (by decide +kernel))
  have hsymbol : ∀ c ∈ ['f', 'x'], AtomValue [c] (.symbol (String.ofList [c])) := by
    simp only [List.mem_cons, List.not_mem_nil, or_false]
    rintro c (rfl | rfl) <;> exact ofAtom_eq_ok_iff.1 rfl
  have hdata : Data [.atom ['f'], .string "a\tb\\cq".toList, .atom "-1.25".toList, .quoteMark,
      .atom ['x']] [.symbol "f", .string "a\tb\\cq", .num (-1.25),
        .ofList [.symbol "quote", .symbol "x"]] :=
    .cons (.atom (hsymbol 'f' (by decide))) (.cons .string (.cons (.atom hnumber)
      (.cons (.quoted (.atom (hsymbol 'x' (by decide)))) .nil)))
  refine (read_eq_ok_iff _ none _).2 ⟨_, cut_iff.2 ⟨htokens, by decide⟩, ?_⟩
  exact .cons (.list hdata) .nil

end SmallLisp.Source
