import SmallLisp.Rules.Transformer

/-!
# Written patterns

Compilation turns the elements of a list into a pattern and fills one table of depths on the way.
Two definitions say what comes out, without the table:

* `Pattern.Written literals elements p` — the list `elements` is a way to write the pattern `p`
  when the symbols in `literals` stand for themselves. It has one rule per kind of pattern and is
  what inductions on an accepted pattern go over, since it carries the source next to the pattern.
* `Pattern.leveled depth p` — the variables of `p`, each with the number of ellipses above it, in
  the order in which compilation meets them.

`compileSequence_spec` joins them with the compiler. An accepted list is `Written` as its pattern,
and the table grows by exactly the `leveled` vars, none of which it had before. That the names
recorded on an ellipsis are the variables below it is part of the rule for an ellipsis: the
difference of the two tables is the list of new names, because the table only ever grows at its end.
-/

namespace SmallLisp

/-! ### The symbol of repetition -/

theorem Value.isEllipsis_symbol (name : String) :
    (symbol name).isEllipsis = (name == ellipsis) := rfl

theorem Value.eq_of_isEllipsis {v : Value} (h : v.isEllipsis = true) : v = symbol ellipsis := by
  cases v with
  | symbol name =>
    rw [isEllipsis_symbol, beq_iff_eq] at h
    rw [h]
  | _ => cases h

namespace Pattern

/-! ### Variables and literals -/

/-- The variables of a pattern, in the order in which compilation meets them: the rest of a list
before its first element. -/
def vars : Pattern → List String
  | .empty => []
  | .variable name rest => rest.vars ++ [name]
  | .literal _ rest => rest.vars
  | .sublist head rest => rest.vars ++ head.vars
  | .repetition repeated _ => repeated.vars

/-- The variables of a pattern that is itself under `depth` ellipses, each with the number of
ellipses above it. -/
def leveled (depth : Nat) : Pattern → List (String × Nat)
  | .empty => []
  | .variable name rest => rest.leveled depth ++ [(name, depth)]
  | .literal _ rest => rest.leveled depth
  | .sublist head rest => rest.leveled depth ++ head.leveled depth
  | .repetition repeated _ => repeated.leveled (depth + 1)

/-- The literals that occur in a pattern. -/
def literals : Pattern → List String
  | .empty => []
  | .variable _ rest => rest.literals
  | .literal name rest => name :: rest.literals
  | .sublist head rest => head.literals ++ rest.literals
  | .repetition repeated _ => repeated.literals

/-- Every ellipsis repeats at least one variable. -/
def Varied : Pattern → Prop
  | .empty => True
  | .variable _ rest => rest.Varied
  | .literal _ rest => rest.Varied
  | .sublist head rest => head.Varied ∧ rest.Varied
  | .repetition repeated _ => repeated.vars ≠ [] ∧ repeated.Varied

theorem map_fst_leveled (p : Pattern) (depth : Nat) :
    (p.leveled depth).map Prod.fst = p.vars := by
  induction p generalizing depth with
  | empty => rfl
  | «variable» name rest ih =>
    rw [leveled, vars, List.map_append, ih]
    rfl
  | literal name rest ih => exact ih depth
  | sublist head rest ihHead ihRest =>
    rw [leveled, vars, List.map_append, ihRest, ihHead]
  | repetition repeated names ih => exact ih (depth + 1)

/-! ### How a pattern is written -/

/-- The lists that are ways to write a pattern, where the symbols in `symbols` stand for themselves.
An ellipsis closes its list and records the variables of what it repeats. -/
inductive Written (symbols : List String) : List Value → Pattern → Prop where
  | empty : Written symbols [] .empty
  | variable {name : String} {elements : List Value} {rest : Pattern} :
      name ∉ symbols → name ≠ ellipsis → Written symbols elements rest →
      Written symbols (.symbol name :: elements) (.variable name rest)
  | literal {name : String} {elements : List Value} {rest : Pattern} :
      name ∈ symbols → name ≠ ellipsis → Written symbols elements rest →
      Written symbols (.symbol name :: elements) (.literal name rest)
  | sublist {inner elements : List Value} {self : Option Identity} {head rest : Pattern} :
      Written symbols inner head → Written symbols elements rest →
      Written symbols (.list inner self :: elements) (.sublist head rest)
  | repetition {element : Value} {repeated : Pattern} :
      Written symbols [element] repeated →
      Written symbols [element, .symbol ellipsis] (.repetition repeated repeated.vars)

namespace Written

variable {symbols : List String} {elements : List Value} {p : Pattern}

/-- No written pattern begins with an ellipsis. -/
theorem head_isEllipsis {element : Value} (h : Written symbols (element :: elements) p) :
    element.isEllipsis = false := by
  -- the list has to be a variable for the induction; in the case of an ellipsis it is a shorter one
  generalize hl : element :: elements = l at h
  induction h generalizing element elements with
  | empty => cases hl
  | «variable» _ hname _ _ =>
    cases hl
    simpa [Value.isEllipsis_symbol] using hname
  | literal _ hname _ _ =>
    cases hl
    simpa [Value.isEllipsis_symbol] using hname
  | sublist _ _ _ _ =>
    cases hl
    rfl
  | repetition _ ih =>
    cases hl
    exact ih rfl

/-- What follows an element that no ellipsis repeats does not begin with one. -/
theorem leadingEllipses_eq_zero (h : Written symbols elements p) :
    Template.leadingEllipses elements = 0 := by
  cases elements with
  | nil => rfl
  | cons element rest =>
    rw [Template.leadingEllipses, List.takeWhile_cons_of_neg (by simp [h.head_isEllipsis])]
    rfl

/-- A variable is neither a literal nor the ellipsis. -/
theorem of_mem_vars (h : Written symbols elements p) {name : String}
    (hname : name ∈ p.vars) : name ∉ symbols ∧ name ≠ ellipsis := by
  induction h with
  | empty => cases hname
  | «variable» hfree hdots _ ih =>
    rcases List.mem_append.1 hname with hrest | hhere
    · exact ih hrest
    · rw [List.mem_singleton.1 hhere]
      exact ⟨hfree, hdots⟩
  | literal _ _ _ ih => exact ih hname
  | sublist _ _ ihHead ihRest =>
    rcases List.mem_append.1 hname with hrest | hhead
    · exact ihRest hrest
    · exact ihHead hhead
  | repetition _ ih => exact ih hname

end Written

/-! ### What compilation records -/

/-- The names that the longer of two lists has more than the shorter one. -/
private theorem filter_append_of_nodup {old new : List String} (h : (old ++ new).Nodup)
    {keep : String → Bool} (hkeep : ∀ n, keep n = true ↔ n ∉ old) :
    (old ++ new).filter keep = new := by
  rw [List.filter_append]
  have hold : old.filter keep = [] :=
    List.filter_eq_nil_iff.2 fun n hn hk => (hkeep n).1 hk hn
  have hnew : new.filter keep = new :=
    List.filter_eq_self.2 fun n hn =>
      (hkeep n).2 fun ho => (List.nodup_append.1 h).2.2 n ho n hn rfl
  rw [hold, hnew, List.nil_append]

/-- The names that an ellipsis records are the variables of what it repeats: the table grows at its
end, so the names that are new are those after the old ones. -/
theorem filter_new_names {depths found : Table Nat} {repeated : Pattern} {depth : Nat}
    (hentries : found.entries = depths.entries ++ repeated.leveled depth)
    (hfound : found.names.Nodup) :
    (found.names.filter fun name => !depths.contains name) = repeated.vars := by
  have hnames : found.names = depths.names ++ repeated.vars := by
    rw [Table.names, hentries, List.map_append, map_fst_leveled]
    rfl
  rw [hnames]
  refine filter_append_of_nodup (hnames ▸ hfound) fun n => ?_
  rw [Bool.not_eq_true', ← Bool.not_eq_true, Table.contains_iff_mem_names]

mutual

/-- **What the compilation of a list records.** The list is a way to write the pattern, and the
variables of the pattern, with their depths, are what is added to the table, each of them new. -/
theorem compileSequence_spec {symbols : List String} {elements : List Value} {depth : Nat}
    {depths found : Table Nat} {p : Pattern} (hnd : depths.names.Nodup)
    (h : compileSequence symbols elements depth depths = .ok (p, found)) :
    Written symbols elements p ∧ found.entries = depths.entries ++ p.leveled depth
      ∧ found.names.Nodup := by
  match elements with
  | [] =>
    rw [compileSequence] at h
    cases h
    exact ⟨.empty, (List.append_nil _).symm, hnd⟩
  | element :: rest =>
    rw [compileSequence] at h
    split at h
    · cases h
    · next hfirst =>
      replace hfirst : element.isEllipsis = false := by simpa using hfirst
      split at h
      · next hdots =>
        split at h
        · cases h
        · next hlast =>
          split at h
          · next repeated _ hrepeated =>
            -- the element is one level deeper and stands in front of nothing
            cases h
            obtain ⟨hwritten, new, hentries, hleveled, hfound⟩ :=
              compileElement_spec hnd hrepeated hfirst
            obtain ⟨dots, rfl⟩ : ∃ dots, rest = [dots] :=
              List.length_eq_one_iff.1 (Decidable.not_not.1 hlast)
            obtain rfl := Value.eq_of_isEllipsis (by simpa using hdots)
            rw [leveled, List.nil_append] at hleveled
            rw [← hleveled] at hentries
            rw [filter_new_names hentries hfound]
            exact ⟨.repetition (hwritten [] .empty), hentries, hfound⟩
          · cases h
      · split at h
        · next after _ hafter =>
          -- the rest comes first, and its table is the one that the element finds
          obtain ⟨hwritten, hentries, hmiddle⟩ := compileSequence_spec hnd hafter
          obtain ⟨hcons, new, hentries', hleveled, hfound⟩ :=
            compileElement_spec hmiddle h hfirst
          refine ⟨hcons rest hwritten, ?_, hfound⟩
          rw [hentries', hentries, hleveled, List.append_assoc]
        · cases h

/-- What the compilation of an element in front of a compiled rest records. -/
theorem compileElement_spec {symbols : List String} {element : Value} {rest : Pattern}
    {depth : Nat} {depths found : Table Nat} {p : Pattern} (hnd : depths.names.Nodup)
    (h : compileElement symbols element rest depth depths = .ok (p, found))
    (hdots : element.isEllipsis = false) :
    (∀ elements, Written symbols elements rest → Written symbols (element :: elements) p)
      ∧ ∃ new, found.entries = depths.entries ++ new
        ∧ p.leveled depth = rest.leveled depth ++ new ∧ found.names.Nodup := by
  match element with
  | .symbol name =>
    have hname : name ≠ ellipsis := by simpa [Value.isEllipsis_symbol] using hdots
    rw [compileElement] at h
    split at h
    · next hliteral =>
      cases h
      -- a literal adds no variable
      replace hliteral : name ∈ symbols := by simpa using hliteral
      refine ⟨fun elements hrest => .literal hliteral hname hrest, [], ?_, ?_, hnd⟩
      · rw [List.append_nil]
      · rw [List.append_nil]
        rfl
    · next hliteral =>
      replace hliteral : name ∉ symbols := by simpa using hliteral
      split at h
      · cases h
      · next hnew =>
        cases h
        -- a new variable is added at the end, at the depth of the walk
        rw [Table.contains_iff_mem_names] at hnew
        exact ⟨fun elements hrest => .variable hliteral hname hrest, [(name, depth)],
          Table.entries_set_of_notMem hnew depth, rfl, Table.nodup_names_set hnd name depth⟩
  | .list inner self =>
    rw [compileElement] at h
    split at h
    · next head _ hhead =>
      cases h
      obtain ⟨hwritten, hentries, hfound⟩ := compileSequence_spec hnd hhead
      exact ⟨fun elements hrest => .sublist hwritten hrest, head.leveled depth, hentries, rfl,
        hfound⟩
    · cases h
  | .number _ _ | .string _ | .boolean _ | .primitive _ _ | .compound _ _ _ _ _
  | .transformer _ _ _ _ _ => simp [compileElement] at h

end

/-- **What an accepted pattern records.** It is written as the elements of the list that was
compiled; its table holds its variables with their depths, and no variable occurs twice. -/
theorem compile_spec {pattern : Value} {symbols : List String} {c : CompiledPattern}
    (h : compile pattern symbols = .ok c) :
    ∃ elements self, pattern = .list elements self ∧ Written symbols elements c.root
      ∧ c.depths.entries = c.root.leveled 0 ∧ c.root.vars.Nodup := by
  cases pattern with
  | list elements self =>
    cases hseq : compileSequence symbols elements 0 ∅ with
    | error fault => simp [compile, hseq, Except.map] at h
    | ok compiled =>
      obtain ⟨root, depths⟩ := compiled
      simp only [compile, hseq, Except.map, Except.ok.injEq] at h
      subst h
      -- the walk begins with no variables
      have hempty : (∅ : Table Nat).names.Nodup := List.nodup_nil
      obtain ⟨hwritten, hentries, hnd⟩ := compileSequence_spec hempty hseq
      refine ⟨elements, self, rfl, hwritten, hentries, ?_⟩
      rw [← map_fst_leveled root 0]
      rw [Table.names, hentries] at hnd
      exact hnd
  | _ => simp [compile] at h

/-- The names of the table are the variables. -/
theorem names_depths_of_compile {pattern : Value} {symbols : List String} {c : CompiledPattern}
    (h : compile pattern symbols = .ok c) : c.depths.names = c.root.vars := by
  obtain ⟨_, _, -, -, hentries, -⟩ := compile_spec h
  rw [Table.names, hentries, map_fst_leveled]

/-! ### Lists of literals with the same members -/

mutual

theorem compileSequence_congr {symbols others : List String}
    (h : ∀ name, symbols.contains name = others.contains name) (elements : List Value)
    (depth : Nat) (depths : Table Nat) :
    compileSequence symbols elements depth depths
      = compileSequence others elements depth depths := by
  match elements with
  | [] => rw [compileSequence, compileSequence]
  | element :: rest =>
    rw [compileSequence, compileSequence, compileSequence_congr h rest,
      compileElement_congr h element .empty (depth + 1)]
    simp only [compileElement_congr h element]

theorem compileElement_congr {symbols others : List String}
    (h : ∀ name, symbols.contains name = others.contains name) (element : Value) (rest : Pattern)
    (depth : Nat) (depths : Table Nat) :
    compileElement symbols element rest depth depths
      = compileElement others element rest depth depths := by
  match element with
  | .symbol name => rw [compileElement, compileElement, h name]
  | .list elements _ => rw [compileElement, compileElement, compileSequence_congr h elements]
  | .number _ _ | .string _ | .boolean _ | .primitive _ _ | .compound _ _ _ _ _
  | .transformer _ _ _ _ _ => rw [compileElement, compileElement] <;> simp

end

/-- Which symbols are literals matters, and neither their order nor how often they are listed. -/
theorem compile_congr {symbols others : List String}
    (h : ∀ name, symbols.contains name = others.contains name) (pattern : Value) :
    compile pattern symbols = compile pattern others := by
  cases pattern with
  | list elements self => rw [compile, compile, compileSequence_congr h]
  | _ => rfl

end Pattern

/-- A clause has a pattern of a keyword and of operands that compile. -/
theorem Transformer.compileClause_eq_ok {literals : List String} {pattern : Value}
    {c : CompiledPattern} (h : compileClause literals pattern = .ok c) :
    ∃ keyword operands self, pattern = .list (keyword :: operands) self
      ∧ Pattern.compile (.ofList operands) literals = .ok c := by
  unfold compileClause at h
  split at h
  · next keyword operands self => exact ⟨keyword, operands, self, rfl, h⟩
  · cases h

/-- A transformer stores each literal once, which its patterns do not notice. -/
theorem Transformer.compileClause_eraseDups (literals : List String) (pattern : Value) :
    compileClause literals.eraseDups pattern = compileClause literals pattern := by
  have hsame : ∀ name, literals.eraseDups.contains name = literals.contains name := by
    intro name
    rw [Bool.eq_iff_iff, List.contains_iff_mem, List.contains_iff_mem, List.mem_eraseDups]
  unfold compileClause
  split
  · exact Pattern.compile_congr hsame _
  · rfl

end SmallLisp
