import Mathlib.Data.List.Permutation
import SmallLisp.Proofs.Number.Positional
import SmallLisp.Proofs.Source.Lines
import SmallLisp.Proofs.Source.Spacing
import SmallLisp.Value.Equality

/-!
# Reading what was written

`Value.reread` says what is read where a value was written: the same tree with its strings and
numbers as their texts are read (`readAll_spaced_spell`). Values that cannot be read at all are left
out: procedures, and symbols whose names are no words of symbols. What the reader answers with is
never one of these (`legible_of_read`).

What is read is alike to what was written if every string and every number of it is
(`isAlike_reread_iff`). A string is if it has no control characters but tab, line feed and carriage
return, and a number is if it is finite and written without an exponent.
-/

namespace SmallLisp

open Text

namespace Value

/-- What is read where a number was written: a number again if the text is a numeral, and else a
symbol. -/
def rereadNumber (x : Float) : Value :=
  match Number.ofNumeral? (Number.spell x) with
  | some y => num y
  | none => symbol (String.ofList (Number.spell x))

mutual

/-- What is read where a value was written. -/
def reread : Value → Value
  | number x _ => rereadNumber x
  | string s => string (String.ofList (s.toList.flatMap Quoted.reread))
  | list elements _ => ofList (rereadAll elements)
  | v => v

/-- What is read for each of several values. -/
def rereadAll : List Value → List Value
  | [] => []
  | v :: vs => v.reread :: rereadAll vs

end

mutual

/-- The strings inside a value. -/
def strings : Value → List String
  | string s => [s]
  | list elements _ => stringsIn elements
  | _ => []

/-- The strings inside several values. -/
def stringsIn : List Value → List String
  | [] => []
  | v :: vs => v.strings ++ stringsIn vs

end

mutual

/-- The numbers inside a value. -/
def numbers : Value → List Float
  | number x _ => [x]
  | list elements _ => numbersIn elements
  | _ => []

/-- The numbers inside several values. -/
def numbersIn : List Value → List Float
  | [] => []
  | v :: vs => v.numbers ++ numbersIn vs

end

mutual

/-- The tree of a value without the texts of its strings. -/
def shape : Value → Value
  | string _ => string ""
  | list elements _ => ofList (shapeAll elements)
  | v => v

/-- The trees of several values. -/
def shapeAll : List Value → List Value
  | [] => []
  | v :: vs => v.shape :: shapeAll vs

end

/-- The names of symbols that the reader can give. -/
structure IsName (name : List Char) : Prop where
  ne_nil : name ≠ []
  isAtomChar : ∀ c ∈ name, Source.isAtomChar c = true
  head?_ne : name.head? ≠ some '#'
  not_numeral : ∀ x, ¬ Number.Numeral name x

/-- The values that are made of what can be read: no procedures, and no symbols with strange
names. -/
inductive Legible : Value → Prop where
  | number {x : Float} {self : Option Identity} : Legible (.number x self)
  | string {text : String} : Legible (.string text)
  | boolean {b : Bool} : Legible (.boolean b)
  | symbol {name : String} : IsName name.toList → Legible (.symbol name)
  | list {elements : List Value} {self : Option Identity} : (∀ v ∈ elements, Legible v) →
      Legible (.list elements self)

theorem rereadAll_eq_map (vs : List Value) : rereadAll vs = vs.map reread := by
  induction vs with
  | nil => rfl
  | cons v vs ih => rw [rereadAll, List.map_cons, ih]

theorem stringsIn_eq_flatMap (vs : List Value) : stringsIn vs = vs.flatMap strings := by
  induction vs with
  | nil => rfl
  | cons v vs ih => rw [stringsIn, List.flatMap_cons, ih]

theorem numbersIn_eq_flatMap (vs : List Value) : numbersIn vs = vs.flatMap numbers := by
  induction vs with
  | nil => rfl
  | cons v vs ih => rw [numbersIn, List.flatMap_cons, ih]

theorem shapeAll_eq_map (vs : List Value) : shapeAll vs = vs.map shape := by
  induction vs with
  | nil => rfl
  | cons v vs ih => rw [shapeAll, List.map_cons, ih]

theorem allAlike_map_iff {f : Value → Value} {vs : List Value} :
    allAlike (vs.map f) vs = true ↔ ∀ v ∈ vs, (f v).isAlike v = true := by
  induction vs with
  | nil => exact iff_of_true rfl fun v hv => absurd hv List.not_mem_nil
  | cons v vs ih =>
    rw [List.map_cons, allAlike, Bool.and_eq_true, ih, List.forall_mem_cons]

/-! ### What is read is alike to what was written -/

/-- The strings and the numbers inside the value are of the kind that reads back. -/
structure Keeps (v : Value) : Prop where
  strings : ∀ s ∈ v.strings, ∀ c ∈ s.toList, ¬ Quoted.IsLost c
  numbers : ∀ x ∈ v.numbers, Number.IsPositional x

theorem keeps_list_iff {elements : List Value} {self : Option Identity} :
    (list elements self).Keeps ↔ ∀ v ∈ elements, v.Keeps := by
  constructor
  · rintro ⟨hstrings, hnumbers⟩ v hv
    -- the strings and the numbers of a list are those of its elements
    rw [Value.strings, stringsIn_eq_flatMap] at hstrings
    rw [Value.numbers, numbersIn_eq_flatMap] at hnumbers
    exact ⟨fun s hs => hstrings s (List.mem_flatMap.2 ⟨v, hv, hs⟩),
      fun x hx => hnumbers x (List.mem_flatMap.2 ⟨v, hv, hx⟩)⟩
  · intro h
    refine ⟨?_, ?_⟩
    · rw [Value.strings, stringsIn_eq_flatMap]
      intro s hs
      obtain ⟨v, hv, hs⟩ := List.mem_flatMap.1 hs
      exact (h v hv).strings s hs
    · rw [Value.numbers, numbersIn_eq_flatMap]
      intro x hx
      obtain ⟨v, hv, hx⟩ := List.mem_flatMap.1 hx
      exact (h v hv).numbers x hx

theorem isAlike_rereadNumber {x : Float} {self : Option Identity} :
    (rereadNumber x).isAlike (number x self) = true ↔ Number.ReadsBack x := by
  rw [rereadNumber, Number.ReadsBack]
  cases Number.ofNumeral? (Number.spell x) with
  | none => exact ⟨nofun, nofun⟩
  | some y => exact ⟨fun h => ⟨y, rfl, h⟩, fun ⟨_, hy, h⟩ => Option.some.inj hy ▸ h⟩

theorem isAlike_reread_string {s : String} :
    (string s).reread.isAlike (string s) = true ↔ ∀ c ∈ s.toList, ¬ Quoted.IsLost c := by
  have hcontent : (string s).reread.isAlike (string s)
      = (String.ofList (s.toList.flatMap Quoted.reread) == s) := rfl
  rw [hcontent, beq_iff_eq, ← Quoted.flatMap_reread_eq_iff, ← String.toList_inj,
    String.toList_ofList]

/-- **A value reads back if its strings and numbers do.** -/
theorem isAlike_reread_iff {v : Value} (h : v.Legible) :
    v.reread.isAlike v = true ↔ v.Keeps := by
  -- by the kind of the value; booleans and symbols are always kept
  induction h with
  | number =>
    rw [reread, isAlike_rereadNumber, Number.readsBack_iff]
    exact ⟨fun h => ⟨nofun, List.forall_mem_singleton.2 h⟩,
      fun h => h.numbers _ List.mem_cons_self⟩
  | string =>
    rw [isAlike_reread_string]
    exact ⟨fun h => ⟨List.forall_mem_singleton.2 h, nofun⟩,
      fun h => h.strings _ List.mem_cons_self⟩
  | boolean => exact ⟨fun _ => ⟨nofun, nofun⟩, fun _ => beq_self_eq_true _⟩
  | symbol => exact ⟨fun _ => ⟨nofun, nofun⟩, fun _ => beq_self_eq_true _⟩
  | list _ ih =>
    rw [reread, ofList, isAlike, rereadAll_eq_map, allAlike_map_iff, keeps_list_iff]
    exact forall₂_congr ih

/-- Only the texts of strings can change in a value without numbers. -/
theorem shape_reread {v : Value} (h : v.Legible) (hnumbers : v.numbers = []) :
    v.reread.shape = v.shape := by
  induction h with
  | number => cases hnumbers
  | list _ ih =>
    rw [numbers, numbersIn_eq_flatMap, List.flatMap_eq_nil_iff] at hnumbers
    rw [reread, ofList, shape, shape, rereadAll_eq_map, shapeAll_eq_map, shapeAll_eq_map,
      List.map_map]
    exact congrArg ofList (List.map_congr_left fun v hv => ih v hv (hnumbers v hv))
  | _ => rfl

end Value

namespace Source

variable {v : Value} {vs : List Value}

/-! ### What is read is what `reread` says -/

theorem isAtomChar_of_isNumeric {c : Char} (h : Number.IsNumeric c) : isAtomChar c = true := by
  rcases h with hdigit | hmark
  · rw [Number.isDigit, Bool.and_eq_true, decide_eq_true_eq, decide_eq_true_eq] at hdigit
    have hlow : 0x30 ≤ c.toNat := hdigit.1
    have hhigh : c.toNat ≤ 0x39 := hdigit.2
    -- the digits lie between the delimiters and the blanks
    have hdelimiter : isDelimiter c = false := by
      simp only [isDelimiter, Bool.or_eq_false_iff, beq_eq_false_iff_ne, ne_eq]
      refine ⟨⟨⟨⟨?_, ?_⟩, ?_⟩, ?_⟩, ?_⟩
      all_goals
        rintro rfl
        revert hlow hhigh
        decide
    have hblank : isBlank c = false := by
      simp only [isBlank, Blank.ranges, List.any_cons, List.any_nil, Bool.or_eq_false_iff,
        Bool.and_eq_false_iff, decide_eq_false_iff_not, and_true]
      omega
    rw [isAtomChar, hdelimiter, hblank]
    rfl
  · have hmarks : ∀ d ∈ ".+-".toList, isAtomChar d = true := List.all_eq_true.1 (by decide)
    exact hmarks c hmark

/-- The text of a number is a word, though not always a numeral. -/
theorem isWord_spell (x : Float) : IsWord (Number.spell x) where
  ne_nil := Number.spell_ne_nil x
  isAtomChar := by
    have hletters : ∀ c ∈ "eNaNInfinity".toList, isAtomChar c = true :=
      List.all_eq_true.1 (by decide)
    intro c hc
    exact (Number.mem_spell c hc).elim isAtomChar_of_isNumeric (hletters c)

theorem head?_spell_ne (x : Float) : (Number.spell x).head? ≠ some '#' := by
  intro hhead
  rcases Number.mem_spell '#' (List.mem_of_head? hhead) with (hdigit | hmark) | hletter
  · exact absurd hdigit (by decide)
  · exact absurd hmark (by decide)
  · exact absurd hletter (by decide)

theorem atomValue_rereadNumber (x : Float) :
    AtomValue (Number.spell x) (Value.rereadNumber x) := by
  rw [Value.rereadNumber]
  cases hnumeral : Number.ofNumeral? (Number.spell x) with
  | some y => exact .number (Number.ofNumeral?_eq_some_iff.1 hnumeral)
  | none => exact .symbol (head?_spell_ne x) (Number.ofNumeral?_eq_none_iff.1 hnumeral)

/-- **The written text of a value denotes what `reread` says.** -/
theorem denotes_spell (h : v.Legible) : Denotes (v.spell .written) v.reread := by
  induction h with
  | @number x self =>
    rw [Value.spell_number, Value.reread]
    exact denotes_atom (isWord_spell x) (atomValue_rereadNumber x)
  | string => exact denotes_string _
  | @boolean b =>
    cases b with
    | true =>
      have hword : IsWord "#t".toList := ⟨by decide, List.all_eq_true.1 (by decide)⟩
      exact denotes_atom hword (.true (.inl rfl))
    | false =>
      have hword : IsWord "#f".toList := ⟨by decide, List.all_eq_true.1 (by decide)⟩
      exact denotes_atom hword (.false (.inl rfl))
  -- a name is no numeral and has no hash sign first, so it is read as a symbol
  | @symbol name h =>
    have hsymbol := AtomValue.symbol h.head?_ne h.not_numeral
    rw [String.ofList_toList] at hsymbol
    rw [Value.spell_symbol]
    exact denotes_atom ⟨h.ne_nil, h.isAtomChar⟩ hsymbol
  -- what the elements are read back as stands between the parentheses
  | @list elements self _ ih =>
    rw [Value.spell_list, Value.reread, Value.rereadAll_eq_map]
    refine denotes_list (denotesAll_spaced ?_)
    rw [List.forall₂_map_left_iff, List.forall₂_map_right_iff, List.forall₂_same]
    exact ih

/-- **What is read where values were written side by side.** -/
theorem readAll_spaced_spell (h : ∀ v ∈ vs, v.Legible) :
    readAll (Value.spaced (vs.map (Value.spell .written))) = .ok (vs.map Value.reread) := by
  refine readAll_of_denotesAll (denotesAll_spaced ?_)
  rw [List.forall₂_map_left_iff, List.forall₂_map_right_iff, List.forall₂_same]
  exact fun v hv => denotes_spell (h v hv)

/-- **Number-free values and their texts.** The text of a value without procedures, numbers and
strange names is one expression and denotes a tree of the same shape. It is the same value again
exactly if no string inside has a control character other than tab, line feed and carriage
return. -/
theorem readOne_write {v : Value} (h : v.Legible) (hnumbers : v.numbers = [])
    (file : Option String) :
    ∃ w, readOne v.write file = .ok w ∧ w.shape = v.shape ∧
      (w.isAlike v = true ↔ ∀ s ∈ v.strings, ∀ c ∈ s.toList,
        c.toNat < 0x20 → c = '\t' ∨ c = '\n' ∨ c = '\r') := by
  have hread : readAll v.write.toList = .ok [v.reread] := by
    rw [Value.write, String.toList_ofList]
    have hone := readAll_spaced_spell (List.forall_mem_singleton.2 h)
    rwa [List.map_singleton, Value.spaced, List.intercalate_singleton] at hone
  refine ⟨v.reread, readOne_eq_ok_iff.2 hread, Value.shape_reread h hnumbers, ?_⟩
  rw [Value.isAlike_reread_iff h]
  constructor
  · intro hkeeps s hs c hc hcontrol
    -- a character that is lost is a control character without an escape of its own
    have hlost := hkeeps.strings s hs c hc
    unfold Quoted.IsLost at hlost
    tauto
  · intro hstrings
    refine ⟨fun s hs c hc hlost => ?_, ?_⟩
    · obtain ⟨hcontrol, htab, hnewline, hreturn⟩ := hlost
      exact (hstrings s hs c hc hcontrol).elim htab (Or.rec hnewline hreturn)
    · intro x hx
      -- there are no numbers, so none can fail to be kept
      rw [hnumbers] at hx
      cases hx

/-- A quote and a tab inside a list come back, and a form feed does not. -/
theorem readOne_write_quote_tab_feed :
    ∃ w, readOne (Value.ofList [.symbol "a", .string "\"\t", .ofList [.string "\x0c"]]).write none
        = .ok w ∧
      w.shape = (Value.ofList [.symbol "a", .string "\"\t", .ofList [.string "\x0c"]]).shape ∧
      (w.isAlike (.ofList [.symbol "a", .string "\"\t", .ofList [.string "\x0c"]]) = true ↔
        ∀ s ∈ ["\"\t", "\x0c"], ∀ c ∈ s.toList,
          c.toNat < 0x20 → c = '\t' ∨ c = '\n' ∨ c = '\r') := by
  have hname : Value.IsName "a".toList :=
    ⟨by decide, List.all_eq_true.1 (by decide), by decide, Number.ofNumeral?_eq_none_iff.1 rfl⟩
  -- the form feed is the one character that is lost
  refine readOne_write (.list ?_) rfl none
  rintro v (_ | ⟨_, _ | ⟨_, _ | ⟨_, ⟨⟩⟩⟩⟩)
  · exact .symbol hname
  · exact .string
  · exact .list (List.forall_mem_singleton.2 .string)

/-! ### What the reader answers with can be read -/

theorem exists_spelling_of_cut {cs : List Char} {tokens : List Token} (h : Cut cs tokens) :
    ∀ token ∈ tokens, ∃ word, Spelling token word := by
  induction h with
  | done => exact nofun
  | blank _ _ ih => exact ih
  | comment _ _ _ ih => exact ih
  | token hspelling _ _ ih => exact List.forall_mem_cons.2 ⟨⟨_, hspelling⟩, ih⟩

theorem isName_quote : Value.IsName "quote".toList where
  ne_nil := by decide
  isAtomChar := List.all_eq_true.1 (by decide)
  head?_ne := by decide
  not_numeral := Number.ofNumeral?_eq_none_iff.1 rfl

theorem legible_of_atomValue {word : List Char} {v : Value} (h : AtomValue word v)
    (hword : IsWord word) : v.Legible := by
  cases h with
  | true => exact .boolean
  | false => exact .boolean
  | number => exact .number
  | symbol hhead hnone =>
    refine .symbol ?_
    rw [String.toList_ofList]
    exact ⟨hword.ne_nil, hword.isAtomChar, hhead, hnone⟩

mutual

theorem Datum.legible {tokens : List Token} {v : Value} :
    Datum tokens v → (∀ token ∈ tokens, ∃ word, Spelling token word) → v.Legible
  | .string, _ => .string
  | .atom hvalue, h => by
    obtain ⟨word, hspelling⟩ := h _ List.mem_cons_self
    cases hspelling with
    | atom hne hword => exact legible_of_atomValue hvalue ⟨hne, hword⟩
  -- a quotation is read as a list with the symbol `quote` in front
  | .quoted hdatum, h => by
    refine .list (List.forall_mem_cons.2 ⟨.symbol isName_quote, List.forall_mem_singleton.2 ?_⟩)
    exact hdatum.legible fun token htoken => h token (List.mem_cons_of_mem _ htoken)
  | .list hdata, h =>
    .list (hdata.legible fun token htoken =>
      h token (List.mem_cons_of_mem _ (List.mem_append_left _ htoken)))

theorem Data.legible {tokens : List Token} {vs : List Value} :
    Data tokens vs → (∀ token ∈ tokens, ∃ word, Spelling token word) → ∀ v ∈ vs, v.Legible
  | .nil, _ => nofun
  | .cons hfirst hrest, h =>
    List.forall_mem_cons.2
      ⟨hfirst.legible fun token htoken => h token (List.mem_append_left _ htoken),
        hrest.legible fun token htoken => h token (List.mem_append_right _ htoken)⟩

end

/-- **The reader answers with legible values only.** -/
theorem legible_of_read {source : String} {file : Option String} (h : read source file = .ok vs) :
    ∀ v ∈ vs, v.Legible := by
  have hdata := data_of_read h
  have hclosed := openString_notMem_of_run (hdata.foldlM_step .start)
  exact hdata.legible (exists_spelling_of_cut (cut_iff.2 ⟨rfl, hclosed⟩))

/-! ### What was read is written and read again -/

theorem toList_intercalate_write (vs : List Value) :
    (" ".intercalate (vs.map Value.write)).toList
      = Value.spaced (vs.map (Value.spell .written)) := by
  rw [String.toList_intercalate, List.map_map]
  exact congrArg _ (List.map_congr_left fun v _ => String.toList_ofList)

theorem read_intercalate_write (h : ∀ v ∈ vs, v.Legible) (file : Option String) :
    read (" ".intercalate (vs.map Value.write)) file = .ok (vs.map Value.reread) := by
  refine read_of_readAll ?_ file
  rw [toList_intercalate_write]
  exact readAll_spaced_spell h

/-- **What was read is written and read again.** The texts of the values of a program, with single
spaces between them, are always a program again, and it has as many values. Each of them is the same
value again exactly if its strings have no control characters but tab, line feed and carriage
return, and its numbers are finite and written without an exponent. -/
theorem read_write_of_read {source : String} {file : Option String}
    (h : read source file = .ok vs) (file' : Option String) :
    ∃ ws, read (" ".intercalate (vs.map Value.write)) file' = .ok ws ∧
      List.Forall₂ (fun w v => w.isAlike v = true ↔ v.Keeps) ws vs := by
  have hlegible := legible_of_read h
  refine ⟨vs.map Value.reread, read_intercalate_write hlegible file', ?_⟩
  rw [List.forall₂_map_left_iff, List.forall₂_same]
  exact fun v hv => Value.isAlike_reread_iff (hlegible v hv)

/-- A comment, a list and a string. -/
theorem read_write_of_read_greeting :
    read "; hi\n(a \"b\\n\") \"\"" none = .ok
        [.ofList [.symbol "a", .string "b\n"], .string ""] ∧
      ∃ ws, read (" ".intercalate ([.ofList [.symbol "a", .string "b\n"], .string ""].map
          Value.write)) none = .ok ws ∧
        List.Forall₂ (fun w v => w.isAlike v = true ↔ v.Keeps) ws
          [.ofList [.symbol "a", .string "b\n"], .string ""] := by
  have hread : read "; hi\n(a \"b\\n\") \"\"" none = .ok
      [.ofList [.symbol "a", .string "b\n"], .string ""] := by cbv
  exact ⟨hread, read_write_of_read hread none⟩

/-- **Not everything that was read reads back.** A control character is written as an escape that
the reader does not know, and its letters are read in its place. -/
theorem not_forall_read_write :
    ¬ ∀ (source : String) (vs : List Value), read source none = .ok vs →
      ∃ ws, read (" ".intercalate (vs.map Value.write)) none = .ok ws ∧
        List.Forall₂ (fun w v => w.isAlike v = true) ws vs := by
  intro h
  -- a string with one raw control character, written as the escape of its code
  have hread : read "\"\x01\"" none = .ok [.string "\x01"] := by cbv
  obtain ⟨ws, hws, halike⟩ := h _ _ hread
  rw [read_intercalate_write (legible_of_read hread)] at hws
  cases hws
  cases halike with
  | cons hfirst _ =>
    have hkeeps := (Value.isAlike_reread_iff .string).1 hfirst
    exact hkeeps.strings _ List.mem_cons_self '\x01' (by decide) (by decide)

end Source

end SmallLisp
