import SmallLisp.Proofs.Session.Composition
import SmallLisp.Proofs.Session.Invariant
import SmallLisp.Repl

/-!
# The loop and the whole text

The loop cuts its lines into groups and runs each group as one text: a group is the shortest run of
lines that is complete, and after the last group there may be lines that wait (`Repl.Cuts`). What
the loop does is what it does group by group (`Repl.exists_cuts`).

If the lines can be read and run as one text without a failure, then so can each group: a text that
is complete but cannot be read stays so whatever follows. Runs of texts one below the other are runs
one after the other, so the loop ends where the run of the whole text does, and has let the outside
see the same (`Repl.Matches`).
-/

namespace SmallLisp

/-- What a program does, as against what the loop adds. -/
def Effect.isRecorded : Effect → Bool
  | .display _ | .trace _ => true
  | .out _ | .failure _ => false

theorem Effect.isRecorded_ofEvent (event : Event) : (Effect.ofEvent event).isRecorded = true := by
  cases event <;> rfl

namespace Repl

open Source (isComplete read)

theorem read_empty (file : Option String) : read "" file = .ok [] := by
  refine Source.read_of_readAll ?_ file
  rw [String.toList_empty, Source.readAll, Source.tokenize_nil]
  rfl

theorem isComplete_empty : isComplete "".toList = true :=
  Source.isComplete_of_read (read_empty none)

/-! ### Groups of lines -/

/-- The text of some lines. -/
def joined (lines : List String) : String :=
  "\n".intercalate lines

@[simp] theorem joined_nil : joined [] = "" := String.intercalate_nil

@[simp] theorem joined_singleton (line : String) : joined [line] = line :=
  String.intercalate_singleton

theorem joined_append {xs ys : List String} (hxs : xs ≠ []) (hys : ys ≠ []) :
    joined (xs ++ ys) = joined xs ++ "\n" ++ joined ys :=
  String.intercalate_append_of_ne_nil hxs hys

/-- The texts of parts of the lines are together the text of the lines. -/
theorem joined_map_joined {parts : List (List String)} (h : ∀ part ∈ parts, part ≠ []) :
    joined (parts.map joined) = joined parts.flatten := by
  induction parts with
  | nil => rfl
  | cons part parts ih =>
    obtain ⟨hpart, hparts⟩ := List.forall_mem_cons.1 h
    cases parts with
    | nil => rw [List.map_singleton, List.flatten_singleton, joined_singleton]
    | cons next parts =>
      -- no part is empty, so between any two of them stands one newline
      have hflatten : (next :: parts).flatten ≠ [] := by
        intro hnil
        exact hparts next List.mem_cons_self
          (List.flatten_eq_nil_iff.1 hnil next List.mem_cons_self)
      have hmap : (next :: parts).map joined ≠ [] := List.cons_ne_nil _ _
      rw [List.flatten_cons, joined_append hpart hflatten, ← ih hparts]
      exact (joined_append (List.cons_ne_nil (joined part) []) hmap).trans
        (by rw [joined_singleton])

/-- However many of these lines are taken from the first one on, they are not complete. -/
def Incomplete (lines : List String) : Prop :=
  ∀ part, part <+: lines → part ≠ [] → isComplete (joined part).toList = false

/-- The shortest run of lines that is complete. -/
structure IsGroup (lines : List String) : Prop where
  ne_nil : lines ≠ []
  isComplete : isComplete (joined lines).toList = true
  shortest : ∀ part, part <+: lines → part ≠ [] → part ≠ lines →
    Source.isComplete (joined part).toList = false

/-- Lines fall into groups, and lines that wait for more. -/
structure Cuts (lines : List String) (groups : List (List String)) (waiting : List String) :
    Prop where
  lines_eq : lines = groups.flatten ++ waiting
  isGroup : ∀ group ∈ groups, IsGroup group
  incomplete : Incomplete waiting

variable {lines waiting before : List String} {groups : List (List String)} {s t u : Session}

theorem incomplete_nil : Incomplete [] := by
  rintro part hpart hne
  exact absurd (List.prefix_nil.1 hpart) hne

theorem Incomplete.snoc {line : String} (h : Incomplete before)
    (hline : isComplete (joined (before ++ [line])).toList = false) :
    Incomplete (before ++ [line]) := by
  intro part hpart hne
  rcases List.prefix_concat_iff.1 hpart with rfl | hbefore
  · exact hline
  · exact h part hbefore hne

theorem Incomplete.isGroup {line : String} (h : Incomplete before)
    (hline : isComplete (joined (before ++ [line])).toList = true) :
    IsGroup (before ++ [line]) where
  ne_nil := List.append_ne_nil_of_right_ne_nil _ (List.cons_ne_nil _ _)
  isComplete := hline
  shortest part hpart hne hwhole := by
    rcases List.prefix_concat_iff.1 hpart with hsame | hbefore
    · exact absurd hsame hwhole
    · exact h part hbefore hne

/-- One more line is joined to those that wait. -/
theorem Incomplete.join_joined (h : Incomplete before) (line : String) :
    join (joined before) line = joined (before ++ [line]) := by
  by_cases hnil : before = []
  · rw [hnil, List.nil_append, joined_singleton]
    rfl
  · have hne : joined before ≠ "" := by
      intro hempty
      have hincomplete := h before List.prefix_rfl hnil
      rw [hempty, isComplete_empty] at hincomplete
      cases hincomplete
    rw [join, if_neg (by rwa [String.isEmpty_iff]), joined_append hnil (List.cons_ne_nil _ _),
      joined_singleton]

/-- The texts of the groups and of what waits are together the whole text. -/
theorem Cuts.joined_parts (h : Cuts lines groups waiting) :
    joined (groups.map joined ++ if waiting = [] then [] else [joined waiting]) = joined lines := by
  have hgroups : ∀ group ∈ groups, group ≠ [] := fun group hgroup => (h.isGroup group hgroup).ne_nil
  rw [h.lines_eq]
  by_cases hwaiting : waiting = []
  · rw [if_pos hwaiting, hwaiting, List.append_nil, List.append_nil, joined_map_joined hgroups]
  · have hparts : ∀ part ∈ groups ++ [waiting], part ≠ [] :=
      List.forall_mem_append.2 ⟨hgroups, List.forall_mem_singleton.2 hwaiting⟩
    have hjoined := joined_map_joined hparts
    rw [List.map_append, List.map_singleton, List.flatten_append, List.flatten_singleton] at hjoined
    rw [if_neg hwaiting, hjoined]

/-! ### Group by group -/

/-- What the loop does with a group: it asks for each line but the first one, and runs the text. -/
def feedGroup (s : Session) (group : List String) : Session × List Effect :=
  let (result, t) := s.run (joined group) none
  (t.drain, List.replicate (group.length - 1) (.out continuation) ++
    (t.events.map Effect.ofEvent ++ shown result ++ [.out prompt]))

/-- What the loop does with one group after the other. -/
def feedGroups (s : Session) : List (List String) → Session × List Effect
  | [] => (s, [])
  | group :: groups =>
    let (t, effects) := feedGroup s group
    let (u, more) := feedGroups t groups
    (u, effects ++ more)

theorem feed_of_isComplete_eq_false (h : Incomplete before) {line : String}
    (hline : isComplete (joined (before ++ [line])).toList = false) (s : Session) :
    feed ⟨s, joined before⟩ line = (⟨s, joined (before ++ [line])⟩, [.out continuation]) := by
  rw [← h.join_joined] at hline
  rw [feed, offer_of_isComplete_eq_false hline, h.join_joined]

theorem feed_of_isComplete (h : Incomplete before) {line : String}
    (hline : isComplete (joined (before ++ [line])).toList = true) (s : Session) :
    (feed ⟨s, joined before⟩ line).1 = ⟨(feedGroup s (before ++ [line])).1, ""⟩ ∧
      List.replicate before.length (.out continuation) ++ (feed ⟨s, joined before⟩ line).2
        = (feedGroup s (before ++ [line])).2 := by
  rw [← h.join_joined] at hline
  rw [feed, offer_of_isComplete hline, h.join_joined, feedGroup, List.length_append]
  exact ⟨rfl, rfl⟩

/-- **The loop goes group by group.** Its lines fall into groups and lines that wait, it runs the
text of each group, and it keeps those that wait. -/
theorem exists_cuts (h : Incomplete before) (s : Session) (lines : List String) :
    ∃ groups waiting, Cuts (before ++ lines) groups waiting ∧
      (feedAll ⟨s, joined before⟩ lines).1 = ⟨(feedGroups s groups).1, joined waiting⟩ ∧
      List.replicate before.length (.out continuation) ++ (feedAll ⟨s, joined before⟩ lines).2
        = (feedGroups s groups).2 ++ List.replicate waiting.length (.out continuation) := by
  -- The lines that wait are what the induction carries: none of their beginnings is complete. Each
  -- line either waits with them or completes the group.
  induction lines generalizing before s with
  | nil =>
    refine ⟨[], before, ⟨List.append_nil _, nofun, h⟩, rfl, ?_⟩
    exact List.append_nil _
  | cons line lines ih =>
    rw [feedAll]
    cases hline : isComplete (joined (before ++ [line])).toList with
    | false =>
      obtain ⟨groups, waiting, hcuts, hloop, heffects⟩ := ih (h.snoc hline) s
      rw [List.append_assoc] at hcuts
      -- the line waits, and the prompt for one more line is shown
      refine ⟨groups, waiting, hcuts, ?_⟩
      rw [feed_of_isComplete_eq_false h hline]
      refine ⟨hloop, ?_⟩
      rw [List.length_append, List.replicate_add, List.append_assoc] at heffects
      exact heffects
    | true =>
      -- the group is complete: it is run, and the buffer is empty again
      obtain ⟨hfed, hshown⟩ := feed_of_isComplete h hline s
      obtain ⟨groups, waiting, hcuts, hloop, heffects⟩ :=
        ih incomplete_nil (feedGroup s (before ++ [line])).1
      refine ⟨(before ++ [line]) :: groups, waiting, ⟨?_, ?_, hcuts.incomplete⟩, ?_, ?_⟩
      · rw [List.flatten_cons, List.append_assoc, List.append_assoc, ← hcuts.lines_eq]
        rfl
      · exact List.forall_mem_cons.2 ⟨h.isGroup hline, hcuts.isGroup⟩
      · dsimp only
        rw [hfed]
        exact hloop
      · dsimp only
        rw [hfed, ← List.append_assoc, hshown, feedGroups]
        dsimp only
        rw [List.append_assoc]
        exact congrArg _ heffects

/-! ### The whole text -/

/-- What the loop did and showed agrees with a run that ends in the session `t`. -/
structure Matches (outcome : Session × List Effect) (t : Session) : Prop where
  session : outcome.1 = t.drain
  not_failure : ∀ text, .failure text ∉ outcome.2
  recorded : outcome.2.filter Effect.isRecorded = t.events.map Effect.ofEvent

theorem filter_map_ofEvent (events : List Event) :
    (events.map Effect.ofEvent).filter Effect.isRecorded = events.map Effect.ofEvent := by
  rw [List.filter_eq_self]
  intro effect heffect
  obtain ⟨event, -, rfl⟩ := List.mem_map.1 heffect
  exact Effect.isRecorded_ofEvent event

/-- A group whose run does not fail. -/
theorem matches_feedGroup {group : List String} {v : Option Value}
    (h : s.run (joined group) none = (.ok v, t)) : Matches (feedGroup s group) t := by
  -- prompts are not recorded, they belong to the loop and not to the program
  have hcontinuation : ∀ count,
      (List.replicate count (.out continuation)).filter Effect.isRecorded = [] := by
    intro count
    rw [List.filter_eq_nil_iff]
    intro effect heffect
    rw [List.eq_of_mem_replicate heffect]
    exact Bool.false_ne_true
  -- nor is the value that the loop shows
  have hshown : (shown (.ok v)).filter Effect.isRecorded = [] := by
    cases v <;> rfl
  rw [feedGroup, h]
  refine ⟨rfl, ?_, ?_⟩
  · intro text hmem
    simp only [List.mem_append, List.mem_singleton, List.mem_map] at hmem
    -- no effect of a run that succeeds is a failure: prompts, events, the value, the next prompt
    rcases hmem with hmem | (⟨event, -, hevent⟩ | hmem) | hmem
    · cases List.eq_of_mem_replicate hmem
    · cases event <;> cases hevent
    · cases v with
      | none => cases hmem
      | some w => cases List.mem_singleton.1 hmem
    · cases hmem
  · dsimp only
    rw [List.filter_append, List.filter_append, List.filter_append, hcontinuation, hshown,
      filter_map_ofEvent, List.nil_append, List.append_nil]
    exact List.append_nil _

/-- The runs of the first group and of the others together. -/
theorem Matches.append {outcome more : Session × List Effect} (h : Matches outcome t)
    (hmore : Matches more u) : Matches (more.1, outcome.2 ++ more.2) (u.after t.state.events) where
  session := hmore.session
  not_failure text hmem :=
    (List.mem_append.1 hmem).elim (h.not_failure text) (hmore.not_failure text)
  recorded := by
    rw [Session.events_after, List.map_append, List.filter_append, h.recorded, hmore.recorded]
    rfl

/-- If a text that is complete can be read with another one below it, then both can be read. -/
theorem exists_read_of_read_append {a b : String} (ha : isComplete a.toList = true)
    {es : List Value} (h : read (a ++ "\n" ++ b) none = .ok es) :
    ∃ vs ws, read a none = .ok vs ∧ read b none = .ok ws := by
  -- a complete text that cannot be read fails in the same way with more behind it
  cases hread : read a none with
  | error failure =>
    rw [Source.final_of_isComplete ha hread] at h
    cases h
  | ok vs =>
    rw [Source.read_append_eq hread] at h
    cases hmore : read b none with
    | error failure =>
      rw [hmore] at h
      cases h
    | ok ws => exact ⟨vs, ws, rfl, rfl⟩

/-- If two texts run without a failure one below the other, then so does each, the second one after
the first one. -/
theorem exists_run_of_run_append {a b : String} {vs ws : List Value} {v : Option Value}
    (ha : read a none = .ok vs) (hb : read b none = .ok ws)
    (h : (s.run (a ++ "\n" ++ b) none).1 = .ok v) :
    ∃ v₁ v₂ t u, s.run a none = (.ok v₁, t) ∧ t.drain.run b none = (.ok v₂, u) ∧
      (s.run (a ++ "\n" ++ b) none).2 = u.after t.state.events := by
  rw [Session.run_append_line ha hb] at h ⊢
  rcases hfirst : s.run a none with ⟨failure | v₁, t⟩
  · rw [hfirst] at h
    cases h
  · rw [hfirst] at h
    dsimp only at h ⊢
    -- the second run may as well begin with an empty record
    have hsecond := Session.run_after t.drain t.state.events b none
    rw [Session.after_drain] at hsecond
    rcases hrun : t.drain.run b none with ⟨failure | v₂, u⟩
    · rw [hsecond, hrun] at h
      cases h
    · refine ⟨v₁, v₂, t, u, rfl, hrun, ?_⟩
      rw [hsecond, hrun]

/-- The last group, after which nothing follows. -/
theorem matches_empty (hs : s.events = []) : Matches (s, []) (s.run "" none).2 := by
  have hstate : s.state = { s.state with events := #[] } := by
    rw [← Array.toList_eq_nil_iff.1 hs]
  rw [Session.run_of_read (read_empty none)]
  refine ⟨?_, nofun, ?_⟩
  · change s = { s with state := { s.state with events := #[] } }
    rw [← hstate]
  · change [] = s.events.map Effect.ofEvent
    rw [hs]
    rfl

/-- **Where the whole text runs without a failure**, no lines wait in the end, and what the loop did
agrees with that run. -/
theorem matches_feedGroups (hgroups : ∀ group ∈ groups, IsGroup group)
    (hwaiting : Incomplete waiting) (hs : s.events = []) {es : List Value} {v : Option Value}
    (hread : read (joined (groups.flatten ++ waiting)) none = .ok es)
    (hrun : (s.run (joined (groups.flatten ++ waiting)) none).1 = .ok v) :
    waiting = [] ∧ Matches (feedGroups s groups)
      (s.run (joined (groups.flatten ++ waiting)) none).2 := by
  induction groups generalizing s es v with
  | nil =>
    -- what waits is incomplete, but the whole text can be read
    have hnil : waiting = [] := by
      by_contra hne
      have hincomplete := hwaiting waiting List.prefix_rfl hne
      rw [List.flatten_nil, List.nil_append] at hread
      rw [Source.isComplete_of_read hread] at hincomplete
      cases hincomplete
    subst hnil
    exact ⟨rfl, matches_empty hs⟩
  | cons group groups ih =>
    obtain ⟨hgroup, hgroups⟩ := List.forall_mem_cons.1 hgroups
    rw [List.flatten_cons, List.append_assoc] at hread hrun ⊢
    by_cases hrest : groups.flatten ++ waiting = []
    · -- the group is the last one
      obtain ⟨hflatten, rfl⟩ := List.append_eq_nil_iff.1 hrest
      have hlast : groups = [] := by
        refine List.eq_nil_iff_forall_not_mem.2 fun next hnext => ?_
        exact (hgroups next hnext).ne_nil (List.flatten_eq_nil_iff.1 hflatten next hnext)
      subst hlast
      rw [List.flatten_nil, List.append_nil, List.append_nil] at hrun ⊢
      refine ⟨rfl, ?_⟩
      have hsame : feedGroups s [group] = feedGroup s group :=
        Prod.ext rfl (List.append_nil _)
      rw [hsame]
      exact matches_feedGroup (Prod.ext hrun rfl)
    · rw [joined_append hgroup.ne_nil hrest] at hread hrun ⊢
      -- the group and what follows can be read each on its own, so the run is that of the one and
      -- then of the other
      obtain ⟨vs, ws, hfirst, hsecond⟩ := exists_read_of_read_append hgroup.isComplete hread
      obtain ⟨v₁, v₂, t, u, hfirstRun, hsecondRun, hboth⟩ :=
        exists_run_of_run_append hfirst hsecond hrun
      have hmatches := matches_feedGroup hfirstRun
      -- the rest is run in the state the group has left
      obtain ⟨hwaits, hmore⟩ := ih hgroups (s := t.drain) rfl hsecond (v := v₂) (by rw [hsecondRun])
      rw [hsecondRun, ← hmatches.session] at hmore
      rw [hboth]
      exact ⟨hwaits, hmatches.append hmore⟩

/-- **The loop agrees with running the whole text.** Its lines fall into groups, each the shortest
run of lines from its start that is complete, and into lines that wait; the loop runs the texts of
the groups, and these and what waits are together the whole text. If that can be read and runs to
its end, then nothing waits after the last line, no failure was shown, and the session and what the
program showed are those of the run. -/
theorem feedAll_agrees (s : Session) (lines : List String) :
    ∃ groups waiting, Cuts lines groups waiting ∧
      joined (groups.map joined ++ if waiting = [] then [] else [joined waiting]) = joined lines ∧
      feedAll ⟨s.drain, ""⟩ lines
        = (⟨(feedGroups s.drain groups).1, joined waiting⟩,
            (feedGroups s.drain groups).2 ++ List.replicate waiting.length (.out continuation)) ∧
      ∀ es v t, read (joined lines) none = .ok es → s.drain.run (joined lines) none = (.ok v, t) →
        waiting = [] ∧ (∀ text, .failure text ∉ (feedAll ⟨s.drain, ""⟩ lines).2) ∧
          (feedAll ⟨s.drain, ""⟩ lines).1 = ⟨t.drain, ""⟩ ∧
          (feedAll ⟨s.drain, ""⟩ lines).2.filter Effect.isRecorded
            = t.events.map Effect.ofEvent := by
  obtain ⟨groups, waiting, hcuts, hloop, heffects⟩ := exists_cuts incomplete_nil s.drain lines
  rw [List.nil_append] at hcuts
  have hfeed : feedAll ⟨s.drain, ""⟩ lines
      = (⟨(feedGroups s.drain groups).1, joined waiting⟩,
          (feedGroups s.drain groups).2 ++ List.replicate waiting.length (.out continuation)) :=
    Prod.ext hloop heffects
  refine ⟨groups, waiting, hcuts, hcuts.joined_parts, hfeed, ?_⟩
  · intro es v t hread hrun
    -- if the whole text can be read and run then nothing waits, and the groups give the same run
    obtain ⟨hlines, hgroups, hwaiting⟩ := hcuts
    rw [hlines] at hread hrun
    obtain ⟨rfl, hmatches⟩ := matches_feedGroups hgroups hwaiting rfl hread (v := v) (by rw [hrun])
    rw [hrun] at hmatches
    rw [hfeed, List.length_nil, List.replicate_zero, List.append_nil, hmatches.session, joined_nil]
    exact ⟨rfl, hmatches.not_failure, rfl, hmatches.recorded⟩

/-- An expression and a string over three lines. -/
theorem feedAll_agrees_display : ∃ s v t, Session.start SpecialForm.registry false false = .ok s ∧
    read (joined ["(display", "\"a", "b\")"]) none
      = .ok [.ofList [.symbol "display", .string "a\nb"]] ∧
    s.drain.run (joined ["(display", "\"a", "b\")"]) none = (.ok v, t) ∧
    (feedAll ⟨s.drain, ""⟩ ["(display", "\"a", "b\")"]).1 = ⟨t.drain, ""⟩ ∧
    (feedAll ⟨s.drain, ""⟩ ["(display", "\"a", "b\")"]).2.filter Effect.isRecorded
      = t.events.map Effect.ofEvent := by
  obtain ⟨s, hstart, -⟩ := Session.exists_start_bare false
  -- a string over two lines: neither of the first two lines is complete
  have hread : read (joined ["(display", "\"a", "b\")"]) none
      = .ok [.ofList [.symbol "display", .string "a\nb"]] := by cbv
  have hends : (s.drain.run (joined ["(display", "\"a", "b\")"]) none).1.isOk = true := by
    cases hstart
    decide +kernel
  rcases hrun : s.drain.run (joined ["(display", "\"a", "b\")"]) none with ⟨failure | v, t⟩
  · rw [hrun] at hends
    cases hends
  · obtain ⟨groups, waiting, -, -, -, hagrees⟩ := feedAll_agrees s ["(display", "\"a", "b\")"]
    obtain ⟨-, -, hloop, hshown⟩ := hagrees _ v t hread hrun
    exact ⟨s, v, t, hstart, hread, hrun, hloop, hshown⟩

end Repl

end SmallLisp
