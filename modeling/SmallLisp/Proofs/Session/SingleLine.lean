import SmallLisp.Proofs.Run.CallTree
import SmallLisp.Proofs.Session.Start
import SmallLisp.Proofs.Source.ReadBack
import SmallLisp.Repl

/-!
# Names are words, and texts are lines

In a session that only runs texts every name is a word: one that the reader could have given, or one
that the evaluator brings in. So the written form of a value, in which the strings are escaped, is a
single line, and so is each line of the trace and each value that the loop shows (`single_lines`).

The names are followed through the runs as a discipline, `Discipline.words`, and the lines of the
trace as a footprint of it, `Footprint.lines`. What a value shows is said of values within the
discipline once (`not_mem_spell`).
-/

namespace SmallLisp

open Source (IsWord isAtomChar)

variable {name : String} {v : Value} {role : Discipline.Role}

/-- The names that a value itself shows, those in its parts apart. -/
inductive Value.Shows (name : String) : Value → Prop where
  | symbol : Shows name (.symbol name)
  | primitive {action : Action} {self : Option Identity} : action.name = name →
      Shows name (.primitive action self)
  | procedure {parameters : List String} {body : List Value} {env : Env} {self : Option Identity} :
      Shows name (.compound (some name) parameters body env self)
  | parameter {called : Option String} {parameters : List String} {body : List Value} {env : Env}
      {self : Option Identity} : name ∈ parameters →
      Shows name (.compound called parameters body env self)
  | transformer {literals : List String} {clauses : List (Value × Value)} {env : Env}
      {self : Option Identity} : Shows name (.transformer name literals clauses env self)

/-! ### The discipline of words -/

/-- All names are words. -/
def Discipline.words : Discipline where
  Known _ := True
  Name name := IsWord name.toList
  strict := False
  keyword name hname := by
    simp only [List.mem_cons, List.not_mem_nil, or_false] at hname
    rcases hname with rfl | rfl | rfl | rfl
    all_goals exact ⟨by decide, List.all_eq_true.1 (by decide)⟩

namespace Discipline

theorem words_operation (op : Operation) : words.Name op.name := by
  cases op
  all_goals exact ⟨by decide, List.all_eq_true.1 (by decide)⟩

theorem words_constant : words.Name "true" ∧ words.Name "false" :=
  ⟨⟨by decide, List.all_eq_true.1 (by decide)⟩, ⟨by decide, List.all_eq_true.1 (by decide)⟩⟩

/-- What the reader gives has words for names. -/
theorem words_of_legible (h : v.Legible) : words.Within role v := by
  induction h with
  | number => exact .number
  | string => exact .string
  | boolean => exact .boolean
  | symbol hname => exact .symbol ⟨hname.ne_nil, hname.isAtomChar⟩
  | list _ ih => exact .list ih

theorem Within.isWord (h : words.Within role v) (hshows : v.Shows name) : IsWord name.toList := by
  -- by what shows the name: a symbol is itself a word, a procedure was named in a text
  cases hshows with
  | symbol => exact h.of_symbol
  | primitive hname =>
    cases h with
    | primitive _ hword => exact hname ▸ hword
  | procedure =>
    cases h with
    | compound _ _ _ hword => exact hword name rfl
  | parameter hmem =>
    cases h with
    | compound _ _ _ _ hparameters => exact hparameters name hmem
  | transformer =>
    cases h with
    | transformer _ _ hword => exact hword

end Discipline

/-! ### The texts of values -/

namespace Text.Quoted

theorem hexDigit_ne (n : Nat) : hexDigit n ≠ '\n' := by
  have hdigits : ∀ m < 16, Nat.digitChar m ≠ '\n' := by decide
  exact hdigits _ (Nat.mod_lt n (by decide))

/-- A line feed is written as a backslash and a letter. -/
theorem not_mem_escape (c : Char) : '\n' ∉ escape c := by
  unfold escape
  split
  case h_8 hfeed _ _ =>
    split
    · simp [(hexDigit_ne (c.toNat / 16)).symm, (hexDigit_ne c.toNat).symm]
    · rw [List.mem_singleton]
      exact fun heq => hfeed heq.symm
  all_goals decide

theorem not_mem_quote (cs : List Char) : '\n' ∉ quote cs := by
  rw [quote, List.mem_cons, List.mem_append, List.mem_flatMap, List.mem_singleton]
  rintro (hquote | ⟨c, -, hc⟩ | hquote)
  · cases hquote
  · exact not_mem_escape c hc
  · cases hquote

end Text.Quoted

namespace Value

/-- Between words there is one space. -/
theorem mem_spaced {c : Char} {words : List (List Char)} (h : c ∈ spaced words) :
    c = ' ' ∨ ∃ word ∈ words, c ∈ word := by
  induction words with
  | nil => cases h
  | cons first rest ih =>
    cases rest with
    | nil =>
      rw [spaced, List.intercalate_singleton] at h
      exact .inr ⟨first, List.mem_cons_self, h⟩
    | cons second rest =>
      rw [Source.spaced_cons_cons, List.mem_append, List.mem_cons] at h
      -- in the first word, the space behind it, or what follows
      rcases h with hfirst | rfl | hrest
      · exact .inr ⟨first, List.mem_cons_self, hfirst⟩
      · exact .inl rfl
      · obtain hspace | ⟨word, hword, hc⟩ := ih hrest
        · exact .inl hspace
        · exact .inr ⟨word, List.mem_cons_of_mem _ hword, hc⟩

/-- Words and spaces are on one line. -/
theorem not_mem_spaced {words : List (List Char)} (h : ∀ word ∈ words, '\n' ∉ word) :
    '\n' ∉ spaced words := by
  intro hmem
  rcases mem_spaced hmem with hspace | ⟨word, hword, hin⟩
  · cases hspace
  · exact h word hword hin

end Value

theorem Source.IsWord.not_mem {cs : List Char} (h : IsWord cs) : '\n' ∉ cs := by
  intro hmem
  exact absurd (h.isAtomChar '\n' hmem) (by decide)

namespace Value

/-- A text on one line between two others. -/
theorem not_mem_between {opening text closing : List Char} (hopening : '\n' ∉ opening)
    (htext : '\n' ∉ text) (hclosing : '\n' ∉ closing) : '\n' ∉ opening ++ text ++ closing := by
  rw [List.mem_append, List.mem_append]
  rintro ((h | h) | h)
  · exact hopening h
  · exact htext h
  · exact hclosing h

theorem not_mem_parentheses {text : List Char} (h : '\n' ∉ text) : '\n' ∉ '(' :: (text ++ [')']) :=
  @not_mem_between ['('] text [')'] (by decide) h (by decide)

theorem not_mem_spellNames {names : List String} (h : ∀ n ∈ names, IsWord n.toList) :
    '\n' ∉ spellNames names := by
  have hwords : ∀ word ∈ names.map String.toList, '\n' ∉ word :=
    List.forall_mem_map.2 fun n hn => (h n hn).not_mem
  exact not_mem_parentheses (not_mem_spaced hwords)

theorem not_mem_spellCompound {called : Option String} {parameters : List String}
    (hcalled : ∀ n ∈ called, IsWord n.toList) (hparameters : ∀ n ∈ parameters, IsWord n.toList) :
    '\n' ∉ spellCompound called parameters := by
  have hnames := not_mem_spellNames hparameters
  unfold spellCompound
  split
  · exact not_mem_between (by decide) hnames (by decide)
  · exact not_mem_between (by decide) hnames (by decide)
  · next n _ =>
    -- a procedure with a name is written with it in front of the parameters
    have hshown := not_mem_between (by decide : '\n' ∉ "#<procedure ".toList)
      (hcalled n rfl).not_mem List.not_mem_nil
    rw [List.append_nil] at hshown
    refine not_mem_between hshown (List.not_mem_cons_of_ne_of_not_mem ?_ hnames) ?_
    · decide
    · decide

end Value

/-- **The written form of a value whose names are words is one line.** -/
theorem Discipline.Within.not_mem_spell (h : words.Within role v) : '\n' ∉ v.spell .written := by
  induction h with
  | @number _ x =>
    have hword := Source.isWord_spell x
    rw [Value.spell_number]
    exact hword.not_mem
  -- a newline of the string itself is written as an escape
  | string => exact Text.Quoted.not_mem_quote _
  | @boolean _ b => cases b <;> decide
  | symbol hname =>
    rw [Value.spell_symbol]
    exact Source.IsWord.not_mem hname
  -- the elements are written with spaces between them
  | @list _ elements _ _ ih =>
    have hspaced := Value.not_mem_spaced (List.forall_mem_map.2 ih)
    rw [Value.spell_list]
    exact Value.not_mem_parentheses hspaced
  | primitive _ hname =>
    exact Value.not_mem_between (by decide) (Source.IsWord.not_mem hname) (by decide)
  | compound _ _ _ hname hparameters => exact Value.not_mem_spellCompound hname hparameters
  | transformer _ _ hname =>
    exact Value.not_mem_between (by decide) (Source.IsWord.not_mem hname) (by decide)

theorem Discipline.Within.not_mem_write (h : words.Within role v) : '\n' ∉ v.write.toList := by
  rw [Value.write, String.toList_ofList]
  exact h.not_mem_spell

theorem not_mem_traceLine (depth : Nat) (hname : Discipline.words.Name name)
    {arguments : List Value} (harguments : ∀ a ∈ arguments, Discipline.words.Data a) :
    '\n' ∉ (Machine.traceLine depth name arguments).toList := by
  -- a trace line is a list that is written: the name and then the arguments
  have hwords : ∀ word ∈ name.toList :: arguments.map (Value.spell .written), '\n' ∉ word := by
    intro word hword
    rcases List.mem_cons.1 hword with rfl | hword
    · exact Source.IsWord.not_mem hname
    · obtain ⟨a, ha, rfl⟩ := List.mem_map.1 hword
      exact (harguments a ha).not_mem_spell
  -- in front of it stand the spaces of the depth
  have hindent : '\n' ∉ List.replicate (2 * depth) ' ' :=
    fun hmem => absurd (List.eq_of_mem_replicate hmem) (by decide)
  rw [Machine.toList_traceLine, ← List.append_assoc]
  exact Value.not_mem_between (by decide) hindent
    (Value.not_mem_parentheses (Value.not_mem_spaced hwords))

/-! ### Runs -/

/-- Each line of the trace so far is one line. -/
def State.TracesLines (s : State) : Prop :=
  ∀ line ∈ s.lines, '\n' ∉ line.toList

theorem State.TracesLines.push_trace {s : State} (h : s.TracesLines) {line : String}
    (hline : '\n' ∉ line.toList) :
    State.TracesLines { s with events := s.events.push (.trace line) } := by
  rw [TracesLines, lines_push_trace]
  exact List.forall_mem_append.2 ⟨h, List.forall_mem_singleton.2 hline⟩

theorem State.TracesLines.push_output {s : State} (h : s.TracesLines) (text : String) :
    State.TracesLines { s with events := s.events.push (.output text) } := by
  rwa [TracesLines, lines_push_output]

/-- Adding lines to the trace. -/
def Footprint.lines : Footprint .words where
  Rel _ s t := s.TracesLines → t.TracesLines
  refl _ _ := id
  trans hst htu h := htu (hst h)
  outer h := h
  settle _ _ _ := id
  close _ _ := id
  output _ _ text h := h.push_output text
  trace _ s _ _ hname harguments h := h.push_trace (not_mem_traceLine s.depth hname harguments)
  deeper h := h
  define _ _ _ := id
  assign _ _ _ := id
  call _ _ h := h

namespace Session

/-- A session in which all names are words and each line of the trace is one line. -/
structure Worded (s : Session) : Prop where
  holds : Discipline.words.Holds s.state.store
  traces : s.state.TracesLines
  global : s.global ≠ []

variable {s : Session}

theorem Worded.runsFrom (h : s.Worded) {source : String} {file : Option String}
    {es : List Value} (hread : Source.read source file = .ok es) :
    Footprint.lines.RunsFrom (fun _ _ => True) s.global.head? s.state
      (program s.machine s.global none es) fun result => ∀ v ∈ result, Discipline.words.Data v :=
  runs_program (Footprint.lines.keeps_machine s.config s.limit) (fun _ _ => trivial) h.global
    (fun e he => Discipline.words_of_legible (Source.legible_of_read hread e he)) none nofun
    s.state h.holds

/-- **Every run keeps names words and lines single**, whether it fails or not. -/
theorem Worded.run (h : s.Worded) (source : String) (file : Option String) :
    Worded (s.run source file).2 := by
  rw [Session.run]
  split
  · exact h
  · next es hread =>
    rw [state_perform]
    have hleads := (h.runsFrom hread).leads
    exact ⟨hleads.holds, hleads.rel h.traces, h.global⟩

theorem Worded.runAll (h : s.Worded) (texts : List (String × Option String)) :
    (s.runAll texts).Worded := by
  induction texts generalizing s with
  | nil => exact h
  | cons text rest ih => exact ih (h.run text.1 text.2)

/-- The value of a run. -/
theorem Worded.data_of_run (h : s.Worded) {source : String} {file : Option String} {v : Value}
    (hrun : (s.run source file).1 = .ok (some v)) : Discipline.words.Data v := by
  rw [Session.run] at hrun
  split at hrun
  · cases hrun
  · next es hread =>
    rw [perform] at hrun
    split at hrun
    · next result t heq =>
      cases hrun
      exact ((h.runsFrom hread).of_eq_ok heq).2 v rfl
    · cases hrun

theorem Worded.drain (h : s.Worded) : s.drain.Worded :=
  ⟨h.holds, List.forall_mem_nil _, h.global⟩

/-! ### How sessions start -/

theorem worded_bareAt {limit : Nat} {config : Config} {registry : Registry SpecialForm}
    (h : bareAt limit config registry = .ok s) : s.Worded := by
  have hensures := ensures_globalEnvironment Footprint.lines (fun _ => trivial)
    Discipline.words_operation Discipline.words_constant.1 Discipline.words_constant.2 registry
  unfold Eval.Ensures at hensures
  unfold bareAt at h
  split at h
  · next global t heq =>
    cases h
    rw [heq] at hensures
    obtain ⟨rfl, f, next, -, hleads⟩ := hensures
    exact ⟨hleads.holds, hleads.rel (List.forall_mem_nil _), List.cons_ne_nil 0 []⟩
  · cases h

theorem worded_startAt {limit : Nat} {registry : Registry SpecialForm} {tracing prelude : Bool}
    (h : startAt limit registry tracing prelude = .ok s) : s.Worded :=
  of_startAt (fun _ hb => worded_bareAt hb) (fun _ source file hb => hb.run source file) h

/-- The parts of the values of further runs. -/
def Answers (s : Session) (v : Value) : Prop :=
  ∃ source file result, (s.run source file).1 = .ok (some result) ∧ v.Part result

/-- What can be reached in a session keeps to the discipline of words. -/
theorem Worded.data (h : s.Worded) (hv : s.state.store.Contains v ∨ s.Answers v) :
    Discipline.words.Data v := by
  rcases hv with ⟨id, name, w, hw, hpart⟩ | ⟨source, file, result, hrun, hpart⟩
  · exact (h.holds.bound id trivial name w hw).part hpart
  · exact (h.data_of_run hrun).part hpart

end Session

/-! ### The loop -/

namespace Repl

/-- What the loop prints: a prompt, the end of the last line, or a value that is one line, after its
mark. -/
inductive Prints : String → Prop where
  | prompt : Prints prompt
  | continuation : Prints continuation
  | ending : Prints "\n"
  | result {body : String} : '\n' ∉ body.toList → Prints (resultMark ++ body ++ "\n")

/-- An effect that a consumer can read line by line. What a program writes itself, and what is told
of failures, can have any form. -/
def IsLine : Effect → Prop
  | .out text => Prints text
  | .trace text => ∃ line, text = line ++ "\n" ∧ '\n' ∉ line.toList
  | .display _ | .failure _ => True

variable {s : Session} {l : Loop}

theorem isLine_ofEvent (h : s.Worded) : ∀ event ∈ s.events, IsLine (Effect.ofEvent event) := by
  intro event hevent
  cases event with
  | output text => trivial
  | trace line => exact ⟨line, rfl, h.traces line (List.mem_filterMap.2 ⟨_, hevent, rfl⟩)⟩

theorem isLine_shown (h : s.Worded) (source : String) (file : Option String) :
    ∀ effect ∈ shown (s.run source file).1, IsLine effect := by
  cases hresult : (s.run source file).1 with
  | error failure => exact List.forall_mem_singleton.2 trivial
  | ok value =>
    cases value with
    | none => exact List.forall_mem_nil _
    | some v => exact List.forall_mem_singleton.2 (.result (h.data_of_run hresult).not_mem_write)

/-- **One more line has effects that are lines**, and leaves names words. -/
theorem isLine_feed (h : l.session.Worded) (line : String) :
    (feed l line).1.session.Worded ∧ ∀ effect ∈ (feed l line).2, IsLine effect := by
  unfold feed
  split
  · next text pending _ =>
    have hrun := h.run text none
    refine ⟨hrun.drain, fun effect heffect => ?_⟩
    -- what the run has put out, what is shown of the result, the prompt
    rcases List.mem_append.1 heffect with heffect | heffect
    · rcases List.mem_append.1 heffect with heffect | heffect
      · obtain ⟨event, hevent, rfl⟩ := List.mem_map.1 heffect
        exact isLine_ofEvent hrun event hevent
      · exact isLine_shown h text none effect heffect
    · obtain rfl := List.mem_singleton.1 heffect
      exact Prints.prompt
  · exact ⟨h, List.forall_mem_singleton.2 Prints.continuation⟩

theorem isLine_feedAll (h : l.session.Worded) (lines : List String) :
    ∀ effect ∈ (feedAll l lines).2, IsLine effect := by
  induction lines generalizing l with
  | nil => exact List.forall_mem_nil _
  | cons line lines ih =>
    obtain ⟨hnext, hfirst⟩ := isLine_feed h line
    exact List.forall_mem_append.2 ⟨hfirst, ih hnext⟩

theorem isLine_finish (l : Loop) : ∀ effect ∈ finish l, IsLine effect := by
  unfold finish
  refine List.forall_mem_append.2 ⟨?_, List.forall_mem_singleton.2 Prints.ending⟩
  split
  · exact List.forall_mem_nil _
  · split
    · exact List.forall_mem_nil _
    · exact List.forall_mem_singleton.2 trivial

theorem isLine_transcript (h : s.Worded) (input : String) :
    ∀ effect ∈ transcript s input, IsLine effect := by
  unfold transcript
  refine List.forall_mem_cons.2 ⟨Prints.prompt, List.forall_mem_append.2 ⟨?_, isLine_finish _⟩⟩
  exact isLine_feedAll h.drain (lines input)

end Repl

/-- **Names are words, and texts are lines.** Every session over the core forms starts that allows
any nesting. After any texts, whether or not they run to their ends, every value in it and every
part of a value that it answers with shows words for names, and its written form is one line; so is
each line of the trace, and so is each value that the loop prints from there. -/
theorem Session.single_lines (limit : Nat) (tracing prelude : Bool) :
    ∃ s, startAt (limit + 1) SpecialForm.registry tracing prelude = .ok s ∧ ∀ texts,
      (∀ v, (s.runAll texts).state.store.Contains v ∨ (s.runAll texts).Answers v →
        (∀ name, v.Shows name → IsWord name.toList) ∧ '\n' ∉ v.write.toList) ∧
      (∀ line ∈ (s.runAll texts).state.lines, '\n' ∉ line.toList) ∧
      ∀ input, ∀ effect ∈ Repl.transcript (s.runAll texts) input, Repl.IsLine effect := by
  obtain ⟨s, hstart, -⟩ := exists_startAt limit tracing prelude
  refine ⟨s, hstart, fun texts => ?_⟩
  have hafter := (worded_startAt hstart).runAll texts
  refine ⟨fun v hv => ?_, hafter.traces, Repl.isLine_transcript hafter⟩
  have hdata := hafter.data hv
  exact ⟨fun name hshows => hdata.isWord hshows, hdata.not_mem_write⟩

end SmallLisp
