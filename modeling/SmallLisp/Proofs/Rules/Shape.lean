import SmallLisp.Proofs.Rules.Acceptance
import SmallLisp.Proofs.Rules.Expansion

/-!
# The shape of bindings

Compilation counts the ellipses above each variable, and matching nests what a variable matched. The
two go through a pattern in different ways, one with a table and the other with bindings that are
merged and gathered, and still they agree: whatever form matches, the bindings fit the pattern
(`CompiledPattern.fits_of_match`). They bind its variables and nothing else, each tree has as many
levels as its variable has ellipses, and the variables of an ellipsis have equally many repetitions
wherever it repeats something.

What the pattern stands for (`Pattern.Yields`) decides all this. There every ellipsis has one row
for each repetition, and the trees are the columns of these rows, so that they have equal lengths
(`Pattern.Yields.aligned`) and one level more than what stands in a row (`Pattern.Yields.hasDepth`).
In a row every variable has a tree. That is why matching never needs the empty sequence that would
stand in for a missing one.
-/

namespace SmallLisp

namespace Pattern

variable {sameBinding : String → Bool} {symbols : List String} {elements forms : List Value}
  {p : Pattern} {σ τ : Assignment}

/-! ### Depths -/

/-- **Trees have the depths that compilation records.** -/
theorem Yields.hasDepth (h : p.Yields sameBinding σ forms) {name : String} {depth : Nat}
    (hname : (name, depth) ∈ p.leveled 0) : (σ name).HasDepth depth := by
  rw [← map_length_trails] at hname
  obtain ⟨⟨_, trail⟩, htrail, heq⟩ := List.mem_map.1 hname
  cases heq
  exact h.shaped.hasDepth _ trail htrail

/-! ### Agreement on the numbers of repetitions -/

/-- Only the trees of the variables matter. -/
theorem Aligned.congr (h : p.Aligned σ) (hστ : ∀ name ∈ p.vars, σ name = τ name) : p.Aligned τ := by
  induction p generalizing σ τ with
  | empty => trivial
  | «variable» name rest ih => exact ih h fun n hn => hστ n (List.mem_append_left _ hn)
  | literal name rest ih => exact ih h hστ
  | sublist head rest ihHead ihRest =>
    exact ⟨ihHead h.1 fun n hn => hστ n (List.mem_append_right _ hn),
      ihRest h.2 fun n hn => hστ n (List.mem_append_left _ hn)⟩
  -- lengths are compared here, and at each place the trees below
  | repetition repeated names ih =>
    constructor
    · intro x hx y hy
      rw [← hστ x hx, ← hστ y hy]
      exact h.1 x hx y hy
    · intro place hplace
      refine ih (h.2 place fun n hn => ?_) fun n hn => ?_
      · rw [hστ n hn]
        exact hplace n hn
      · rw [Assignment.repetition, Assignment.repetition, hστ n hn]

/-- Trees that are all the same agree on everything. -/
theorem aligned_const (p : Pattern) (tree : Tree) : p.Aligned fun _ => tree := by
  induction p generalizing tree with
  | empty => trivial
  | «variable» name rest ih => exact ih tree
  | literal name rest ih => exact ih tree
  | sublist head rest ihHead ihRest => exact ⟨ihHead tree, ihRest tree⟩
  | repetition repeated names ih => exact ⟨fun _ _ _ _ => rfl, fun place _ => ih _⟩

/-- The columns of several rows, in one repetition, are the row at that place. -/
theorem repetition_eq_row {rows : List Assignment} {name : String}
    (hcolumn : σ name = .repeated (rows.map (· name))) {place : Nat}
    (hplace : place < rows.length) :
    σ.repetition place name = rows[place] name := by
  rw [Assignment.repetition, hcolumn, Tree.repetitions, List.getD_eq_getElem?_getD,
    List.getElem?_map, List.getElem?_eq_getElem hplace]
  rfl

/-- **The variables of an ellipsis have equally many repetitions**, in every repetition
around it. -/
theorem Yields.aligned (h : p.Yields sameBinding σ forms) : p.Aligned σ := by
  induction p generalizing σ forms with
  | empty => trivial
  | «variable» name rest ih =>
    obtain ⟨form, others, -, -, hrest⟩ := h
    exact ih hrest
  | literal name rest ih =>
    obtain ⟨others, -, -, hrest⟩ := h
    exact ih hrest
  | sublist head rest ihHead ihRest =>
    obtain ⟨inner, self, others, -, hhead, hrest⟩ := h
    exact ⟨ihHead hhead, ihRest hrest⟩
  | repetition repeated names ih =>
    obtain ⟨rows, hcolumns, hrows⟩ := h
    have hlength : ∀ name ∈ repeated.vars, (σ name).repetitions.length = rows.length := by
      intro name hname
      rw [hcolumns name hname, Tree.repetitions, List.length_map]
    refine ⟨fun x hx y hy => (hlength x hx).trans (hlength y hy).symm, fun place hplace => ?_⟩
    by_cases hrow : place < rows.length
    · have hyields := hrows.get hrow (hrows.length_eq ▸ hrow)
      exact (ih hyields).congr fun name hname => (repetition_eq_row (hcolumns name hname) hrow).symm
    · -- beyond the rows no variable has a tree, so what is repeated has no variable
      refine (aligned_const repeated (.repeated [])).congr fun name hname => ?_
      exact absurd (hlength name hname ▸ hplace name hname) hrow

/-! ### Repetitions leave no variable out -/

/-- Whatever part of a written pattern matches binds all variables of that part. -/
theorem exists_tree_of_node (hw : Written symbols elements p) (hnd : p.vars.Nodup)
    {repeated : Pattern} {names : List String} (hnode : Node (.repetition repeated names) p)
    {form : Value} {row : Bindings} (hrow : repeated.matchForms sameBinding [form] ∅ = some row)
    {name : String} (hname : name ∈ names) : ∃ tree, row.get? name = some tree := by
  obtain ⟨element, -, hwritten, rfl⟩ := hw.repeated_of_node hnode
  obtain ⟨σ, -, hbinds⟩ :=
    exists_yields_of_matchForms hwritten (hnd.sublist hnode.vars_sublist) hrow
  exact ⟨σ name, hbinds.inside name hname⟩

end Pattern

namespace CompiledPattern

open Pattern

variable {pattern : Value} {literals : List String} {c : CompiledPattern}

/-- A match repeats no name. -/
theorem nodup_names_of_matchForm? {sameBinding : String → Bool} {form : Value} {b : Bindings}
    (h : c.matchForm? sameBinding form = some b) : b.names.Nodup := by
  obtain ⟨forms, self, -, hmatch⟩ := matchForm?_eq_some.1 h
  exact nodup_names_of_matchForms hmatch

/-- The recorded depth of a variable is the number of ellipses above it. -/
theorem get?_depths_iff (hc : compile pattern literals = .ok c) {name : String} {depth : Nat} :
    c.depths.get? name = some depth ↔ (name, depth) ∈ c.root.leveled 0 := by
  obtain ⟨elements, _, -, -, hentries, hnd⟩ := compile_spec hc
  have hnames : c.depths.names.Nodup := names_depths_of_compile hc ▸ hnd
  rw [← hentries]
  exact ⟨Table.mem_entries_of_get?, Table.get?_of_mem_entries hnames⟩

/-- The tree of a variable has the recorded depth. -/
theorem exists_tree_of_depth (hc : compile pattern literals = .ok c) {sameBinding : String → Bool}
    {form : Value} {b : Bindings} (h : c.matchForm? sameBinding form = some b) {name : String}
    {depth : Nat} (hdepth : c.depths.get? name = some depth) :
    ∃ tree, b.get? name = some tree ∧ tree.HasDepth depth := by
  obtain ⟨σ, forms, self, -, hyields, hbinds⟩ := exists_yields_of_matchForm? hc h
  have hmem := (get?_depths_iff hc).1 hdepth
  exact ⟨σ name, hbinds.inside name (mem_vars_of_mem_leveled hmem), hyields.hasDepth hmem⟩

/-- **Bindings have the shape that their pattern promises.** Whatever form matches, in whatever
environments, the names that are bound are those that compilation has recorded, each once, and the
bindings fit the pattern: trees have the recorded depths, and the variables of an ellipsis agree on
the number of repetitions. Wherever an ellipsis stands in the pattern, a form that matches what it
repeats binds all of the names that it gathers, so that no name is ever missing in a repetition. -/
theorem fits_of_match (hc : compile pattern literals = .ok c) (store : Store)
    (definition use : Env) :
    (∀ form b, c.matchForm? (store.agree definition use) form = some b →
      b.names.Perm c.depths.names ∧ c.Fits b)
      ∧ ∀ repeated names, Node (.repetition repeated names) c.root → ∀ form row,
        repeated.matchForms (store.agree definition use) [form] ∅ = some row →
        ∀ name ∈ names, ∃ tree, row.get? name = some tree := by
  obtain ⟨elements, _, -, hw, -, hnd⟩ := compile_spec hc
  have hnames := names_depths_of_compile hc
  constructor
  · intro form b h
    obtain ⟨σ, forms, self, -, hyields, hbinds⟩ := exists_yields_of_matchForm? hc h
    -- a match binds the variables of the pattern and no others
    have hbound : ∀ name, name ∈ b.names ↔ name ∈ c.depths.names := by
      intro name
      rw [hnames]
      exact hbinds.mem_names_iff
    have hassignment : ∀ name ∈ c.root.vars, σ name = b.assignment name := fun name hname =>
      (Bindings.assignment_of_get? (hbinds.inside name hname)).symm
    refine ⟨?_, hbound, fun name depth tree hdepth htree => ?_, hyields.aligned.congr hassignment⟩
    · exact (List.perm_ext_iff_of_nodup (nodup_names_of_matchForm? h) (hnames ▸ hnd)).2 hbound
    · obtain ⟨tree', htree', hlevels⟩ := exists_tree_of_depth hc h hdepth
      rw [htree] at htree'
      cases htree'
      exact hlevels
  · intro repeated names hnode form row hrow name hname
    exact exists_tree_of_node hw hnd hnode hrow hname

/-- The trees of the operands of `arrows`, and a repetition in which its inner ellipsis repeats
nothing. -/
theorem fits_of_match_arrows :
    arrowTrees.names.Perm compiledArrows.depths.names ∧ compiledArrows.Fits arrowTrees
      ∧ ∃ tree, (Table.ofPairs [("k", Tree.form (.symbol "b")), ("v", .repeated [])]).get? "v"
        = some tree := by
  have hc : compile (.ofList arrows) ["=>"] = .ok compiledArrows := rfl
  obtain ⟨hfits, hgathered⟩ := fits_of_match hc .empty [] []
  obtain ⟨hnames, hfits⟩ := hfits (.ofList arrowOperands) arrowTrees rfl
  exact ⟨hnames, hfits,
    hgathered _ _ (.variable (.head .self)) (.ofList [.symbol "b", .symbol "=>"]) _ rfl
    "v" (by decide)⟩

end CompiledPattern

end SmallLisp
