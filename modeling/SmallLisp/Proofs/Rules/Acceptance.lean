import SmallLisp.Proofs.Rules.Written

/-!
# Which patterns are accepted

Whether a list is accepted as a pattern can be read off the list (`Pattern.Accepted`): every list in
it holds symbols and lists only, an ellipsis closes its list and follows something else, and no
variable occurs twice. Where a variable occurs, the number of ellipses that repeat it can be counted
(`Pattern.occurrences`). Neither says anything of the table that compilation fills from right to
left, or of the difference of two such tables that it takes for the variables of an ellipsis.

Compilation accepts exactly these lists and records exactly these numbers (`Pattern.compile_exact`).
What lies between is how a compiled pattern is written: a well-formed list is written as some
pattern (`Pattern.exists_written`), and a list that is written as a pattern whose variables are all
different, and new, compiles to it (`Pattern.compileSequence_of_written`). What a written pattern
records is already known.
-/

namespace SmallLisp

namespace Pattern

variable {literals : List String} {elements found rest : List Value} {element : Value} {p : Pattern}

/-! ### Lists that are well formed -/

/-- The list is the other one, or stands in it as an element, at any depth. -/
inductive Within (found : List Value) : List Value → Prop where
  | self : Within found found
  | element {inner elements : List Value} {self : Option Identity} :
      .list inner self ∈ elements → Within found inner → Within found elements

/-- The list has only symbols and lists for its elements, and an ellipsis only at its end, after an
element that is none. -/
structure WellPlaced (elements : List Value) : Prop where
  element : ∀ v ∈ elements, (∃ name, v = .symbol name) ∨ v.isList = true
  dots : ∀ before after, elements = before ++ .symbol ellipsis :: after →
    after = [] ∧ ∃ earlier v, before = earlier ++ [v] ∧ v ≠ .symbol ellipsis

/-- The list and all lists in it are well placed. -/
def WellFormed (elements : List Value) : Prop :=
  ∀ found, Within found elements → WellPlaced found

/-- A list is well formed if it is well placed and its sublists are well formed. -/
theorem wellFormed_iff :
    WellFormed elements ↔ WellPlaced elements ∧
      ∀ inner self, .list inner self ∈ elements → WellFormed inner := by
  constructor
  · intro h
    exact ⟨h elements .self, fun inner self hmem found hfound => h found (.element hmem hfound)⟩
  · rintro ⟨hplaced, hinner⟩ found hfound
    cases hfound with
    | self => exact hplaced
    | element hmem hfound => exact hinner _ _ hmem _ hfound

/-- No well-placed list begins with an ellipsis. -/
theorem WellPlaced.ne_ellipsis (h : WellPlaced (element :: rest)) : element ≠ .symbol ellipsis := by
  rintro rfl
  obtain ⟨-, earlier, v, hnil, -⟩ := h.dots [] rest rfl
  cases earlier <;> cases hnil

/-- In front of a well-placed list any symbol or list may stand that is no ellipsis. -/
theorem WellPlaced.cons (h : WellPlaced rest)
    (hshape : (∃ name, element = .symbol name) ∨ element.isList = true)
    (hdots : element ≠ .symbol ellipsis) : WellPlaced (element :: rest) where
  element := List.forall_mem_cons.2 ⟨hshape, h.element⟩
  dots before after heq := by
    cases before with
    | nil => exact absurd (List.cons.inj heq).1 hdots
    | cons first before =>
      obtain ⟨rfl, hrest⟩ := List.cons.inj heq
      obtain ⟨hafter, earlier, v, rfl, hv⟩ := h.dots before after hrest
      exact ⟨hafter, element :: earlier, v, rfl, hv⟩

/-- What follows an element is well placed, unless it is an ellipsis, which is the end then. -/
theorem WellPlaced.tail_cases (h : WellPlaced (element :: rest)) :
    rest = [.symbol ellipsis] ∨ WellPlaced rest := by
  by_cases hdots : rest.head? = some (.symbol ellipsis)
  · obtain ⟨after, rfl⟩ := List.head?_eq_some_iff.1 hdots
    obtain ⟨rfl, -⟩ := h.dots [element] after rfl
    exact .inl rfl
  · refine .inr ⟨fun v hv => h.element v (List.mem_cons_of_mem element hv), ?_⟩
    rintro before after rfl
    obtain ⟨hafter, earlier, v, hbefore, hv⟩ := h.dots (element :: before) after rfl
    refine ⟨hafter, ?_⟩
    cases earlier with
    | nil =>
      -- the element itself stands before the ellipsis
      obtain ⟨-, rfl⟩ := List.cons.inj hbefore
      exact absurd rfl hdots
    | cons first earlier => exact ⟨earlier, v, (List.cons.inj hbefore).2, hv⟩

/-! ### Well-formed lists are written patterns -/

mutual

/-- **A well-formed list is a way to write some pattern.** -/
theorem exists_written (literals elements) (h : WellFormed elements) :
    ∃ p, Written literals elements p := by
  match elements with
  | [] => exact ⟨.empty, .empty⟩
  | element :: rest =>
    obtain ⟨hplaced, hinner⟩ := wellFormed_iff.1 h
    have hshape := hplaced.element element List.mem_cons_self
    have helement := fun others p hothers => exists_written_cons literals element hshape
      hplaced.ne_ellipsis (fun inner self heq => hinner inner self (heq ▸ List.mem_cons_self))
      others p hothers
    -- either the element is repeated and ends the list, or what follows is well formed too
    rcases hplaced.tail_cases with rfl | hrest
    · obtain ⟨repeated, hrepeated⟩ := helement [] .empty .empty
      exact ⟨_, .repetition hrepeated⟩
    · have htail : WellFormed rest :=
        wellFormed_iff.2
          ⟨hrest, fun inner self hmem => hinner inner self (List.mem_cons_of_mem _ hmem)⟩
      obtain ⟨after, hafter⟩ := exists_written literals rest htail
      exact helement rest after hafter

/-- An element in front of a written pattern. -/
theorem exists_written_cons (literals : List String) (element : Value)
    (hshape : (∃ name, element = .symbol name) ∨ element.isList = true)
    (hdots : element ≠ .symbol ellipsis)
    (hinner : ∀ inner self, element = .list inner self → WellFormed inner) (rest : List Value)
    (p : Pattern) (hrest : Written literals rest p) :
    ∃ q, Written literals (element :: rest) q := by
  -- mutual with the lists, by the size of the elements
  match element with
  | .symbol name =>
    have hname : name ≠ ellipsis := fun heq => hdots (congrArg Value.symbol heq)
    by_cases hliteral : name ∈ literals
    · exact ⟨_, .literal hliteral hname hrest⟩
    · exact ⟨_, .variable hliteral hname hrest⟩
  | .list inner self =>
    obtain ⟨head, hhead⟩ := exists_written literals inner (hinner inner self rfl)
    exact ⟨_, .sublist hhead hrest⟩
  | .number _ _ | .string _ | .boolean _ | .primitive _ _ | .compound _ _ _ _ _
  | .transformer _ _ _ _ _ => simp [Value.isList] at hshape

end

/-- A written pattern is well formed. -/
theorem Written.wellFormed (h : Written literals elements p) : WellFormed elements := by
  -- each way in which a pattern is written puts an element in front of a well-formed list
  induction h with
  | empty =>
    refine wellFormed_iff.2
      ⟨⟨fun _ hmem => absurd hmem List.not_mem_nil, fun before after heq => ?_⟩,
      fun _ _ hmem => absurd hmem List.not_mem_nil⟩
    cases before <;> cases heq
  | «variable» _ hname _ ih | literal _ hname _ ih =>
    obtain ⟨hplaced, hinner⟩ := wellFormed_iff.1 ih
    have hdots : Value.symbol _ ≠ .symbol ellipsis := fun heq => hname (Value.symbol.inj heq)
    refine wellFormed_iff.2 ⟨hplaced.cons (.inl ⟨_, rfl⟩) hdots, fun inner self hmem => ?_⟩
    exact hinner inner self (List.mem_of_ne_of_mem Value.noConfusion hmem)
  | sublist _ _ ihHead ihRest =>
    obtain ⟨hplaced, hinner⟩ := wellFormed_iff.1 ihRest
    refine wellFormed_iff.2 ⟨hplaced.cons (.inr rfl) Value.noConfusion, fun inner self hmem => ?_⟩
    rcases List.mem_cons.1 hmem with heq | hmem
    · cases heq
      exact ihHead
    · exact hinner inner self hmem
  | @repetition element repeated hrepeated ih =>
    obtain ⟨hplaced, hinner⟩ := wellFormed_iff.1 ih
    refine wellFormed_iff.2 ⟨⟨?_, ?_⟩, fun inner self hmem => ?_⟩
    · exact List.forall_mem_cons.2 ⟨hplaced.element element List.mem_cons_self,
        List.forall_mem_singleton.2 (.inl ⟨_, rfl⟩)⟩
    · intro before after heq
      -- in a list of two elements only the second one can be the ellipsis
      rcases before with _ | ⟨first, _ | ⟨second, before⟩⟩
      · exact absurd (List.cons.inj heq).1 hplaced.ne_ellipsis
      · obtain ⟨rfl, hafter⟩ := List.cons.inj heq
        exact ⟨(List.cons.inj hafter).2.symm, [], element, rfl, hplaced.ne_ellipsis⟩
      · have hnil := (List.cons.inj (List.cons.inj heq).2).2
        simp at hnil
    · refine hinner inner self ?_
      simpa using hmem

/-! ### Occurrences of variables -/

mutual

/-- The variables of an element that is under `depth` ellipses, once for each place where they
occur, with the number of ellipses above that place. The symbols in `literals` and the ellipsis are
none. -/
def occurrences (literals : List String) (depth : Nat) : Value → List (String × Nat)
  | .symbol name => if literals.contains name || name == ellipsis then [] else [(name, depth)]
  | .list elements _ => occurrencesIn literals depth elements
  | _ => []

/-- The occurrences of variables in the elements of a list. An element before an ellipsis is under
one more. -/
def occurrencesIn (literals : List String) (depth : Nat) : List Value → List (String × Nat)
  | [] => []
  | element :: rest =>
    occurrences literals (if rest.head?.any Value.isEllipsis then depth + 1 else depth) element
      ++ occurrencesIn literals depth rest

end

/-- What follows is written as a pattern, so that it is no ellipsis. -/
theorem Written.head?_isEllipsis (h : Written literals elements p) :
    elements.head?.any Value.isEllipsis = false := by
  cases elements with
  | nil => rfl
  | cons element rest => exact h.head_isEllipsis

theorem occurrencesIn_cons (hrest : Written literals rest p) (depth : Nat) (element : Value) :
    occurrencesIn literals depth (element :: rest)
      = occurrences literals depth element ++ occurrencesIn literals depth rest := by
  rw [occurrencesIn, hrest.head?_isEllipsis, if_neg Bool.false_ne_true]

theorem occurrencesIn_singleton (literals : List String) (depth : Nat) (element : Value) :
    occurrencesIn literals depth [element] = occurrences literals depth element :=
  (occurrencesIn_cons .empty depth element).trans (List.append_nil _)

theorem occurrencesIn_repetition (literals : List String) (depth : Nat) (element : Value) :
    occurrencesIn literals depth [element, .symbol ellipsis]
      = occurrences literals (depth + 1) element := by
  have hdots : occurrences literals depth (.symbol ellipsis) = [] := by
    rw [occurrences, beq_self_eq_true, Bool.or_true, if_pos rfl]
  rw [occurrencesIn, occurrencesIn_singleton, hdots, List.append_nil]
  rfl

/-- **The variables of a written pattern are those that occur in the list**, under as
many ellipses. -/
theorem Written.leveled_perm (h : Written literals elements p) (depth : Nat) :
    (p.leveled depth).Perm (occurrencesIn literals depth elements) := by
  -- compilation is done with the rest before it comes to an element, so that only the order differs
  induction h generalizing depth with
  | empty => exact .nil
  | @«variable» name _ _ hfree hname hrest ih =>
    have hhere : occurrences literals depth (.symbol name) = [(name, depth)] := by
      simp [occurrences, hfree, hname]
    rw [occurrencesIn_cons hrest, hhere, leveled]
    exact List.perm_append_comm.trans ((ih depth).append_left _)
  | @literal name _ _ hliteral _ hrest ih =>
    have hhere : occurrences literals depth (.symbol name) = [] := by
      simp [occurrences, hliteral]
    rw [occurrencesIn_cons hrest, hhere]
    exact ih depth
  | sublist _ hrest ihHead ihRest =>
    rw [occurrencesIn_cons hrest, occurrences, leveled]
    exact List.perm_append_comm.trans ((ihHead depth).append (ihRest depth))
  | repetition _ ih =>
    rw [occurrencesIn_repetition, ← occurrencesIn_singleton]
    exact ih (depth + 1)

theorem Written.vars_perm (h : Written literals elements p) (depth : Nat) :
    p.vars.Perm ((occurrencesIn literals depth elements).map Prod.fst) := by
  rw [← map_fst_leveled p depth]
  exact (h.leveled_perm depth).map Prod.fst

/-! ### Written patterns compile -/

/-- An element by itself is compiled in front of nothing. -/
theorem compileSequence_singleton (hdots : element.isEllipsis = false) (literals : List String)
    (depth : Nat) (depths : Table Nat) :
    compileSequence literals [element] depth depths
      = compileElement literals element .empty depth depths := by
  rw [compileSequence, hdots, if_neg Bool.false_ne_true]
  rfl

/-- Any other element is compiled in front of the rest. -/
theorem compileSequence_cons (hdots : element.isEllipsis = false) (hrest : Written literals rest p)
    {depth : Nat} {depths found : Table Nat}
    (h : compileSequence literals rest depth depths = .ok (p, found)) :
    compileSequence literals (element :: rest) depth depths
      = compileElement literals element p depth found := by
  rw [compileSequence, hdots, hrest.head?_isEllipsis, if_neg Bool.false_ne_true,
    if_neg Bool.false_ne_true, h]

/-- A table that has grown by the variables of a pattern has their names after its own. -/
theorem names_append_leveled (depths : Table Nat) (p : Pattern) (depth : Nat) :
    (⟨depths.entries ++ p.leveled depth⟩ : Table Nat).names = depths.names ++ p.vars := by
  rw [Table.names, List.map_append, map_fst_leveled]
  rfl

/-- **What is written as a pattern compiles to it**, if its variables are all different and new.
They go to the end of the table. -/
theorem compileSequence_of_written (hw : Written literals elements p) (depth : Nat)
    (depths : Table Nat) (hnd : (depths.names ++ p.vars).Nodup) :
    compileSequence literals elements depth depths
      = .ok (p, ⟨depths.entries ++ p.leveled depth⟩) := by
  -- for all tables, because a sublist is compiled with the one that the rest has left
  induction hw generalizing depth depths with
  | empty => rw [compileSequence, leveled, List.append_nil]
  | @«variable» name _ rest hfree hname hrest ih =>
    rw [vars, ← List.append_assoc] at hnd
    obtain ⟨hothers, -, hapart⟩ := List.nodup_append.1 hnd
    have hdots : (Value.symbol name).isEllipsis = false := by
      simpa [Value.isEllipsis_symbol] using hname
    -- the rest has been compiled before, and has not found the name
    let found : Table Nat := ⟨depths.entries ++ rest.leveled depth⟩
    have hnew : name ∉ found.names := by
      rw [names_append_leveled]
      exact fun hmem => hapart name hmem name (List.mem_singleton_self name) rfl
    have hset : found.set name depth
        = ⟨depths.entries ++ (rest.leveled depth ++ [(name, depth)])⟩ := by
      rw [← List.append_assoc]
      exact congrArg Table.mk (Table.entries_set_of_notMem hnew depth)
    rw [compileSequence_cons hdots hrest (ih depth depths hothers), compileElement,
      if_neg (by simpa using hfree), if_neg (by simpa [Table.contains_iff_mem_names] using hnew),
      hset]
    rfl
  | @literal name _ rest hliteral hname hrest ih =>
    have hdots : (Value.symbol name).isEllipsis = false := by
      simpa [Value.isEllipsis_symbol] using hname
    rw [compileSequence_cons hdots hrest (ih depth depths hnd), compileElement,
      if_pos (by simpa using hliteral)]
    rfl
  | @sublist inner _ self head rest hhead hrest ihHead ihRest =>
    rw [vars, ← List.append_assoc] at hnd
    have hothers : (depths.names ++ rest.vars).Nodup := (List.nodup_append.1 hnd).1
    -- the sublist finds the table with the variables of the rest
    rw [← names_append_leveled depths rest depth] at hnd
    have hdots : (Value.list inner self).isEllipsis = false := rfl
    rw [compileSequence_cons hdots hrest (ihRest depth depths hothers), compileElement,
      ihHead depth _ hnd, leveled, List.append_assoc]
  | @repetition element repeated hrepeated ih =>
    have hfirst := hrepeated.head_isEllipsis
    have hnd' : (depths.names ++ repeated.vars).Nodup := hnd
    have hrun := ih (depth + 1) depths hnd'
    rw [compileSequence_singleton hfirst] at hrun
    let found : Table Nat := ⟨depths.entries ++ repeated.leveled (depth + 1)⟩
    -- what the table has gained are the variables of the element, since all of them were new
    have hvars : (found.names.filter fun name => !depths.contains name) = repeated.vars :=
      filter_new_names rfl (names_append_leveled depths repeated (depth + 1) ▸ hnd')
    rw [compileSequence, hfirst, if_neg Bool.false_ne_true]
    have hnext : ([Value.symbol ellipsis].head?.any Value.isEllipsis) = true := by
      simp [Value.isEllipsis_symbol]
    rw [hnext, if_pos rfl, if_neg (by simp), hrun]
    dsimp only
    rw [hvars]
    rfl

/-! ### What is accepted and recorded -/

/-- The list is well formed and no variable occurs twice in it. -/
structure Accepted (literals : List String) (elements : List Value) : Prop where
  wellFormed : WellFormed elements
  nodup : ((occurrencesIn literals 0 elements).map Prod.fst).Nodup

/-- The patterns that a pattern is made of. -/
inductive Node (node : Pattern) : Pattern → Prop where
  | self : Node node node
  | variable {name : String} {rest : Pattern} : Node node rest → Node node (.variable name rest)
  | literal {name : String} {rest : Pattern} : Node node rest → Node node (.literal name rest)
  | head {head rest : Pattern} : Node node head → Node node (.sublist head rest)
  | rest {head rest : Pattern} : Node node rest → Node node (.sublist head rest)
  | repeated {repeated : Pattern} {names : List String} :
      Node node repeated → Node node (.repetition repeated names)

/-- The element stands before an ellipsis in a list that is the given one or stands in it. -/
def Repeated (element : Value) (elements : List Value) : Prop :=
  ∃ before, Within (before ++ [element, .symbol ellipsis]) elements

theorem Repeated.cons (h : Repeated element elements) (first : Value) :
    Repeated element (first :: elements) := by
  obtain ⟨before, hwithin⟩ := h
  cases hwithin with
  | self => exact ⟨first :: before, .self⟩
  | element hmem hinner => exact ⟨before, .element (List.mem_cons_of_mem first hmem) hinner⟩

theorem Repeated.of_inner {inner : List Value} (h : Repeated element inner) (self : Option Identity)
    (rest : List Value) : Repeated element (.list inner self :: rest) := by
  obtain ⟨before, hwithin⟩ := h
  exact ⟨before, .element List.mem_cons_self hwithin⟩

/-- What is repeated in an element is repeated in it when an ellipsis follows. -/
theorem Repeated.before_dots {v : Value} (h : Repeated element [v]) :
    Repeated element [v, .symbol ellipsis] := by
  obtain ⟨before, hwithin⟩ := h
  generalize hall : before ++ [element, .symbol ellipsis] = found at hwithin
  cases hwithin with
  | self =>
    -- two elements at least are not one
    have hlength := congrArg List.length hall
    simp at hlength
  | element hmem hinner =>
    subst hall
    exact ⟨before, .element (List.mem_cons.2 (.inl (List.mem_singleton.1 hmem))) hinner⟩

/-- Every repetition in a written pattern is one of an element before an ellipsis. -/
theorem Written.repeated_of_node (h : Written literals elements p) {repeated : Pattern}
    {names : List String} (hnode : Node (.repetition repeated names) p) :
    ∃ element, Repeated element elements ∧ Written literals [element] repeated
      ∧ names = repeated.vars := by
  -- a repetition inside is one of the rest or of a sublist, except where it is the pattern itself
  induction h with
  | empty => cases hnode
  | «variable» _ _ _ ih =>
    cases hnode with
    | «variable» hnode =>
      obtain ⟨element, hrepeated, hwritten⟩ := ih hnode
      exact ⟨element, hrepeated.cons _, hwritten⟩
  | literal _ _ _ ih =>
    cases hnode with
    | literal hnode =>
      obtain ⟨element, hrepeated, hwritten⟩ := ih hnode
      exact ⟨element, hrepeated.cons _, hwritten⟩
  | @sublist _ rest self _ _ _ _ ihHead ihRest =>
    cases hnode with
    | head hnode =>
      obtain ⟨element, hrepeated, hwritten⟩ := ihHead hnode
      exact ⟨element, hrepeated.of_inner self rest, hwritten⟩
    | rest hnode =>
      obtain ⟨element, hrepeated, hwritten⟩ := ihRest hnode
      exact ⟨element, hrepeated.cons _, hwritten⟩
  | @repetition element repeated hwritten ih =>
    cases hnode with
    -- the repetition is the pattern itself, or lies inside of what it repeats
    | self => exact ⟨element, ⟨[], .self⟩, hwritten, rfl⟩
    | repeated hnode =>
      obtain ⟨inner, hrepeated, hinner⟩ := ih hnode
      exact ⟨inner, hrepeated.before_dots, hinner⟩

/-- What a compiled pattern records of the elements of a list: it is written that way, the keys of
its table are the variables that occur in the list, each with the number of ellipses it is under,
and every ellipsis lists the variables of the element that it repeats. -/
structure Records (literals : List String) (elements : List Value) (compiled : CompiledPattern) :
    Prop where
  root : Written literals elements compiled.root
  depth : ∀ name depth, compiled.depths.get? name = some depth
    ↔ (name, depth) ∈ occurrencesIn literals 0 elements
  nodup : compiled.depths.names.Nodup
  ellipsis : ∀ repeated names, Node (.repetition repeated names) compiled.root →
    ∃ element, Repeated element elements ∧ Written literals [element] repeated ∧ names.Nodup
      ∧ ∀ name, name ∈ names ↔ ∃ depth, (name, depth) ∈ occurrences literals 0 element

/-- The names that an ellipsis lists are those of some variables of the whole pattern. -/
theorem Node.vars_sublist {node : Pattern} (h : Node node p) : node.vars.Sublist p.vars := by
  induction h with
  | self => exact .refl _
  | «variable» _ ih => exact ih.trans (List.sublist_append_left _ _)
  | literal _ ih => exact ih
  | head _ ih => exact ih.trans (List.sublist_append_right _ _)
  | rest _ ih => exact ih.trans (List.sublist_append_left _ _)
  | repeated _ ih => exact ih

/-- What compilation makes of an accepted list is recorded of that list. -/
theorem records_of_compile {pattern : Value} {compiled : CompiledPattern}
    (h : compile pattern literals = .ok compiled) :
    ∃ elements self, pattern = .list elements self ∧ Accepted literals elements
      ∧ Records literals elements compiled := by
  obtain ⟨elements, self, rfl, hwritten, hentries, hnd⟩ := compile_spec h
  -- the table has the levels at which the variables occur, in another order
  have hoccurs : compiled.depths.entries.Perm (occurrencesIn literals 0 elements) :=
    hentries ▸ hwritten.leveled_perm 0
  have hnames : compiled.depths.names.Nodup := names_depths_of_compile h ▸ hnd
  refine ⟨elements, self, rfl, ⟨hwritten.wellFormed, (hwritten.vars_perm 0).nodup_iff.1 hnd⟩,
    hwritten, fun name depth => ?_, hnames, fun repeated names hnode => ?_⟩
  · rw [← hoccurs.mem_iff]
    exact ⟨Table.mem_entries_of_get?, Table.get?_of_mem_entries hnames⟩
  · -- each repetition inside repeats the variables of its element, for which the same holds
    obtain ⟨element, hrepeated, hinner, rfl⟩ := hwritten.repeated_of_node hnode
    refine ⟨element, hrepeated, hinner, hnd.sublist hnode.vars_sublist, fun name => ?_⟩
    rw [(hinner.vars_perm 0).mem_iff, occurrencesIn_singleton, List.mem_map]
    constructor
    · rintro ⟨⟨_, depth⟩, hmem, rfl⟩
      exact ⟨depth, hmem⟩
    · rintro ⟨depth, hmem⟩
      exact ⟨_, hmem, rfl⟩

/-- An accepted list compiles. -/
theorem exists_compile (h : Accepted literals elements) (self : Option Identity) :
    ∃ compiled, compile (.list elements self) literals = .ok compiled := by
  obtain ⟨root, hwritten⟩ := exists_written literals elements h.wellFormed
  have hnd : ((∅ : Table Nat).names ++ root.vars).Nodup :=
    (hwritten.vars_perm 0).nodup_iff.2 h.nodup
  refine ⟨⟨root, ⟨root.leveled 0⟩⟩, ?_⟩
  rw [compile, compileSequence_of_written hwritten 0 ∅ hnd]
  rfl

/-- **Compilation accepts exactly the grammar of patterns and records true depths.** Every other
value is malformed syntax. -/
theorem compile_exact (literals : List String) (pattern : Value) :
    match compile pattern literals with
    | .ok compiled => ∃ elements self, pattern = .list elements self ∧ Accepted literals elements
        ∧ Records literals elements compiled
    | .error fault =>
      (¬ ∃ elements self, pattern = .list elements self ∧ Accepted literals elements)
        ∧ (Failure.malformed fault).code = 203 := by
  cases hcompile : compile pattern literals with
  | ok compiled => exact records_of_compile hcompile
  | error fault =>
    -- what is accepted compiles, so a pattern that does not compile is not accepted
    refine ⟨?_, rfl⟩
    rintro ⟨elements, self, rfl, haccepted⟩
    obtain ⟨compiled, hok⟩ := exists_compile haccepted self
    rw [hok] at hcompile
    cases hcompile

end Pattern

end SmallLisp
