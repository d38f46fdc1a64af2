import SmallLisp.Proofs.Source.Escapes
import SmallLisp.Value.Spelling

/-!
# Texts side by side

A text denotes a value if it is that of one datum wherever it stands (`Denotes`). The one thing that
can go wrong is an atom that goes on with what follows, so the text after it has to begin with
something else (`Separated`). One space is enough for that, and so is a closing parenthesis: the
texts of several data with single spaces between them are the text of all of them, and in
parentheses that of their list (`denotesAll_spaced`, `denotes_list`).

A text of one datum is also what a caller that wants exactly one expression accepts
(`readOne_eq_ok_iff`).
-/

namespace SmallLisp

namespace Source

open Text

variable {cs text : List Char} {v : Value} {vs : List Value}

/-! ### Texts of values -/

/-- Whether an atom ends before the given text. -/
def Separated (rest : List Char) : Prop :=
  ∀ c ∈ rest.head?, isAtomChar c = false

/-- The text is that of one datum, whatever follows that does not go on with an atom. -/
def Denotes (text : List Char) (v : Value) : Prop :=
  ∃ tokens, Datum tokens v ∧ ∀ rest more, Separated rest → Cut rest more →
    Cut (text ++ rest) (tokens ++ more)

/-- The same for the text of several data. -/
def DenotesAll (text : List Char) (vs : List Value) : Prop :=
  ∃ tokens, Data tokens vs ∧ ∀ rest more, Separated rest → Cut rest more →
    Cut (text ++ rest) (tokens ++ more)

/-- A token that is a datum by itself. -/
theorem denotes_of_spelling {token : Token} (hdatum : Datum [token] v)
    (hspelling : Spelling token text) : Denotes text v := by
  refine ⟨[token], hdatum, fun rest more hseparated hcut => .token hspelling ?_ hcut⟩
  cases token with
  | atom word => exact hseparated
  | _ => trivial

theorem denotes_string (cs : List Char) :
    Denotes (Quoted.quote cs) (.string (String.ofList (cs.flatMap Quoted.reread))) :=
  denotes_of_spelling .string (spelling_quote cs)

/-- The words of atoms. -/
structure IsWord (cs : List Char) : Prop where
  ne_nil : cs ≠ []
  isAtomChar : ∀ c ∈ cs, isAtomChar c = true

theorem denotes_atom (hword : IsWord text) (hvalue : AtomValue text v) : Denotes text v :=
  denotes_of_spelling (.atom hvalue) (.atom hword.ne_nil hword.isAtomChar)

theorem spaced_cons_cons (first second : List Char) (rest : List (List Char)) :
    Value.spaced (first :: second :: rest) = first ++ ' ' :: Value.spaced (second :: rest) := by
  rw [Value.spaced, List.intercalate_cons_cons, List.append_assoc]
  rfl

/-- One space keeps two data apart. -/
theorem denotesAll_spaced {texts : List (List Char)} (h : List.Forall₂ Denotes texts vs) :
    DenotesAll (Value.spaced texts) vs := by
  induction h with
  | nil => exact ⟨[], .nil, fun rest more _ hcut => hcut⟩
  | @cons text v texts vs hfirst hrest ih =>
    obtain ⟨tokens, hdatum, hcut⟩ := hfirst
    obtain ⟨others, hdata, hcuts⟩ := ih
    refine ⟨tokens ++ others, .cons hdatum hdata, fun rest more hseparated hmore => ?_⟩
    rw [List.append_assoc]
    -- between two texts stands a space, which ends the first and is skipped before the second
    cases hrest with
    | nil =>
      cases hdata
      rw [Value.spaced, List.intercalate_singleton]
      exact hcut rest more hseparated hmore
    | @cons next _ nexts _ _ _ =>
      rw [spaced_cons_cons, List.append_assoc]
      refine hcut _ _ ?_ (.blank isBlank_space (hcuts rest more hseparated hmore))
      rintro c ⟨⟩
      decide

/-- Data in parentheses are a list. -/
theorem denotes_list (h : DenotesAll text vs) :
    Denotes ('(' :: (text ++ [')'])) (.ofList vs) := by
  obtain ⟨tokens, hdata, hcut⟩ := h
  refine ⟨_, .list hdata, fun rest more _ hmore => ?_⟩
  have hclosing : Cut (')' :: rest) (.closing :: more) := .token .closing trivial hmore
  have hinner := hcut (')' :: rest) _ (by rintro c ⟨⟩; decide) hclosing
  have hall : Cut ('(' :: (text ++ ')' :: rest)) (.opening :: (tokens ++ .closing :: more)) :=
    .token .opening trivial hinner
  simpa using hall

theorem readAll_of_denotesAll (h : DenotesAll text vs) : readAll text = .ok vs := by
  obtain ⟨tokens, hdata, hcut⟩ := h
  have hall := hcut [] [] nofun .done
  rw [List.append_nil, List.append_nil] at hall
  rw [readAll_eq_ok_iff, map_token_tokenize_of_cut hall, run_start_iff]
  exact hdata

/-! ### Exactly one expression -/

theorem place_cases (finished : List Value) (datum : Value) (pending : List Pending) :
    (∃ open', open' ≠ [] ∧ Reading.place finished datum pending = ⟨finished, open'⟩) ∨
      ∃ v, Reading.place finished datum pending = ⟨v :: finished, []⟩ := by
  induction pending generalizing datum with
  | nil => exact .inr ⟨datum, rfl⟩
  | cons first pending ih =>
    cases first with
    | quoted => exact ih (Reading.quoteForm datum)
    | items reversed => exact .inl ⟨_, List.cons_ne_nil _ _, rfl⟩

/-- After a token something is open, or one more expression is finished. -/
theorem step_cases {r next : Reading} {token : Token} (h : r.step token = .ok next) :
    (∃ open', open' ≠ [] ∧ next = ⟨r.finished, open'⟩) ∨
      ∃ v, next = ⟨v :: r.finished, []⟩ := by
  cases token with
  | opening =>
    cases h
    exact .inl ⟨_, List.cons_ne_nil _ _, rfl⟩
  | quoteMark =>
    cases h
    exact .inl ⟨_, List.cons_ne_nil _ _, rfl⟩
  -- what a closing parenthesis completes is put where it belongs, which may complete more
  | closing =>
    rw [Reading.step] at h
    split at h
    · cases h
      exact place_cases _ _ _
    · cases h
  | string text =>
    cases h
    exact place_cases _ _ _
  | atom text =>
    obtain ⟨datum, -, rfl⟩ := map_eq_ok_iff.1 h
    exact place_cases _ _ _
  | openString => cases h

theorem run_cons_eq_ok {r last : Reading} {l : Lexeme} {ls : List Lexeme}
    (h : run r (l :: ls) = .ok last) :
    ∃ next, r.step l.token = .ok next ∧ run next ls = .ok last := by
  rw [run] at h
  split at h
  · next next heq => exact ⟨next, heq, h⟩
  · cases h

/-- Whatever is read leaves something open or finished. -/
theorem pending_or_lt_of_run {r last : Reading} {l : Lexeme} {ls : List Lexeme}
    (h : run r (l :: ls) = .ok last) :
    last.pending ≠ [] ∨ r.finished.length < last.finished.length := by
  induction ls generalizing r l with
  | nil =>
    obtain ⟨next, hstep, hrest⟩ := run_cons_eq_ok h
    cases hrest
    rcases step_cases hstep with ⟨open', hopen, rfl⟩ | ⟨v, rfl⟩
    · exact .inl hopen
    · exact .inr (Nat.lt_succ_self _)
  | cons l' ls ih =>
    obtain ⟨next, hstep, hrest⟩ := run_cons_eq_ok h
    -- a step either leaves something open or finishes one more value
    rcases step_cases hstep with ⟨open', -, rfl⟩ | ⟨v, rfl⟩
    · exact ih (r := ⟨r.finished, open'⟩) hrest
    · exact (ih (r := ⟨v :: r.finished, []⟩) hrest).imp_right Nat.lt_of_succ_lt

/-- The first expression is the only one if nothing else can be read after it. -/
theorem next_eq_ok_iff {ls : List Lexeme} {pending : List Pending} :
    next ⟨[], pending⟩ ls = .ok (v, []) ↔ run ⟨[], pending⟩ ls = .ok ⟨[v], []⟩ := by
  induction ls generalizing pending with
  | nil =>
    constructor
    · intro h
      cases h
    · intro h
      cases h
  | cons l ls ih =>
    unfold next run
    dsimp only
    cases hstep : Reading.step ⟨[], pending⟩ l.token with
    | error fault =>
      constructor
      · intro h
        cases h
      · intro h
        cases h
    | ok r =>
      rcases step_cases hstep with ⟨open', -, rfl⟩ | ⟨w, rfl⟩
      · -- nothing is finished yet, so both go on
        exact ih
      · -- the first expression is finished, and any further lexeme is one too many
        cases ls with
        | nil =>
          constructor
          · intro h
            cases h
            rfl
          · intro h
            cases h
            rfl
        | cons l' ls =>
          constructor
          · intro h
            cases h
          · intro h
            rcases pending_or_lt_of_run h with hpending | hlt
            · exact absurd rfl hpending
            · exact absurd hlt (Nat.lt_irrefl 1)

/-- **`readSingle` reads what `readAll` reads as one expression.** -/
theorem readSingle_eq_ok_iff : readSingle cs = .ok v ↔ readAll cs = .ok [v] := by
  -- that nothing follows is checked after the expression has been read
  have hsingle : readSingle cs = .ok v ↔ next .start (tokenize cs) = .ok (v, []) := by
    rw [readSingle]
    cases next .start (tokenize cs) with
    | error m => exact ⟨nofun, nofun⟩
    | ok p =>
      obtain ⟨w, rest⟩ := p
      cases rest with
      | nil =>
        constructor
        · intro h
          cases h
          rfl
        · intro h
          cases h
          rfl
      | cons l ls => exact ⟨nofun, nofun⟩
  rw [hsingle, readAll_eq_ok_iff, ← run_eq_ok_iff]
  exact next_eq_ok_iff

theorem readOne_eq_ok_iff {source : String} {file : Option String} :
    readOne source file = .ok v ↔ readAll source.toList = .ok [v] := by
  rw [← readSingle_eq_ok_iff, readOne]
  cases readSingle source.toList with
  | ok w =>
    exact ⟨fun h => congrArg Except.ok (Except.ok.inj h),
      fun h => congrArg Except.ok (Except.ok.inj h)⟩
  | error m => exact ⟨nofun, nofun⟩

end Source

end SmallLisp
