import SmallLisp.Proofs.Rules.RoundTrip

/-!
# Templates that follow their pattern

Instantiation finds out while it runs which variables an ellipsis of a template repeats: all those
in its element that still have repetitions. It fails if there are none, if they differ in number, or
if a variable has repetitions left where no ellipsis repeats it. None of this happens if every
ellipsis of the template stands for one of the pattern (`Template.Follows`), that is if each
variable is first of all under the ellipses that it has in the pattern
(`CompiledPattern.exists_instance_of_follows`).

The proof keeps track of the trees during instantiation. What a match binds is `Shaped`: a tree has
one level for each ellipsis above its variable, and two trees repeat alike as far as their variables
share these ellipses. Under `levels` of the template the bindings are `Ready`: of each tree, and of
the agreement of two of them, what is left after so many levels. One more level keeps this
(`Ready.exists_repetitions`), because the variables that it repeats share it and all levels around
it.
-/

namespace SmallLisp

/-! ### The ellipses above a variable -/

namespace Pattern

/-- The place of an ellipsis in a pattern: one branch after the other, into the rest of a list
(`false`) or into what a sublist or an ellipsis holds (`true`). -/
abbrev Place := List Bool

/-- Variables with the places of the ellipses above them, the outermost first. -/
abbrev Trails := List (String × List Place)

/-- The same variables seen from one branch further up. -/
def Trails.below (branch : Bool) (trails : Trails) : Trails :=
  trails.map fun p => (p.1, p.2.map (branch :: ·))

/-- The variables with more than so many ellipses above them. -/
def Trails.beyond (trails : Trails) (count : Nat) : List String :=
  (trails.filter fun p => count < p.2.length).map Prod.fst

theorem Trails.mem_beyond {trails : Trails} {count : Nat} {name : String} :
    name ∈ trails.beyond count ↔ ∃ trail, (name, trail) ∈ trails ∧ count < trail.length := by
  simp [beyond]

/-- The same variables under one more ellipsis, at the top. -/
def Trails.repeated (trails : Trails) : Trails :=
  (trails.below true).map fun p => (p.1, [] :: p.2)

/-- The variables of a pattern with the ellipses above them. -/
def trails : Pattern → Trails
  | .empty => []
  | .variable name rest => rest.trails.below false ++ [(name, [])]
  | .literal _ rest => rest.trails.below false
  | .sublist head rest => rest.trails.below false ++ head.trails.below true
  | .repetition repeated _ => repeated.trails.repeated

theorem Trails.map_length_below (branch : Bool) (trails : Trails) :
    (trails.below branch).map (fun p => (p.1, p.2.length))
      = trails.map fun p => (p.1, p.2.length) := by
  rw [below, List.map_map]
  refine List.map_congr_left fun p _ => ?_
  rw [Function.comp_apply, List.length_map]

/-- There are as many ellipses above a variable as compilation records. -/
theorem map_length_trails (p : Pattern) :
    p.trails.map (fun p => (p.1, p.2.length)) = p.leveled 0 := by
  induction p with
  | empty => rfl
  | «variable» name rest ih =>
    rw [trails, leveled, List.map_append, Trails.map_length_below, ih]
    rfl
  | literal name rest ih => rw [trails, leveled, Trails.map_length_below, ih]
  | sublist head rest ihHead ihRest =>
    rw [trails, leveled, List.map_append, Trails.map_length_below, Trails.map_length_below, ihHead,
      ihRest]
  -- a repetition adds a place to each trail, which is one level more for each variable
  | repetition repeated names ih =>
    have hbelow := Trails.map_length_below true repeated.trails
    rw [trails, leveled, leveled_succ, ← ih, ← hbelow, Trails.repeated, List.map_map, List.map_map]
    rfl

theorem mem_vars_of_mem_trails {p : Pattern} {name : String} {trail : List Place}
    (h : (name, trail) ∈ p.trails) : name ∈ p.vars := by
  have hlevel : (name, trail.length) ∈ p.leveled 0 := by
    rw [← map_length_trails]
    exact List.mem_map_of_mem h
  exact mem_vars_of_mem_leveled hlevel

theorem exists_mem_trails {p : Pattern} {name : String} (h : name ∈ p.vars) :
    ∃ trail, (name, trail) ∈ p.trails := by
  obtain ⟨level, hlevel⟩ := exists_mem_leveled h 0
  rw [← map_length_trails] at hlevel
  obtain ⟨⟨_, trail⟩, hmem, heq⟩ := List.mem_map.1 hlevel
  cases heq
  exact ⟨trail, hmem⟩

end Pattern

open Pattern (Place Trails)

/-! ### The shape of what a match binds -/

/-- Two trees repeat alike, down to a depth. -/
def Tree.Agree : Nat → Tree → Tree → Prop
  | 0, _, _ => True
  | depth + 1, s, t => List.Forall₂ (Tree.Agree depth) s.repetitions t.repetitions

/-- Within one repetition two trees agree one level less. -/
theorem Assignment.agree_repetition {σ : Assignment} {x y : String} {depth place : Nat}
    (h : (σ x).Agree (depth + 1) (σ y)) (hplace : place < (σ x).repetitions.length) :
    (σ.repetition place x).Agree depth (σ.repetition place y) := by
  have hplace' : place < (σ y).repetitions.length := by
    rwa [← List.Forall₂.length_eq h]
  rw [repetition, repetition, List.getD_eq_getElem?_getD, List.getD_eq_getElem?_getD,
    List.getElem?_eq_getElem hplace, List.getElem?_eq_getElem hplace']
  exact List.Forall₂.get h hplace hplace'

/-- Each variable has a tree with a level for every ellipsis above it, and two trees agree as far as
their variables share these ellipses. -/
structure Shaped (trails : Trails) (σ : Assignment) : Prop where
  hasDepth : ∀ name trail, (name, trail) ∈ trails → (σ name).HasDepth trail.length
  agree : ∀ x y t u shared, (x, t) ∈ trails → (y, u) ∈ trails → shared <+: t → shared <+: u →
    (σ x).Agree shared.length (σ y)

namespace Shaped

variable {σ : Assignment} {trails more : Trails}

theorem below (h : Shaped trails σ) (branch : Bool) : Shaped (trails.below branch) σ where
  hasDepth name trail hmem := by
    obtain ⟨p, hp, heq⟩ := List.mem_map.1 hmem
    cases heq
    rw [List.length_map]
    exact h.hasDepth p.1 p.2 hp
  agree x y t u shared hx hy ht hu := by
    obtain ⟨p, hp, heq⟩ := List.mem_map.1 hx
    cases heq
    obtain ⟨q, hq, heq⟩ := List.mem_map.1 hy
    cases heq
    -- what both trails share is the image of what both shared before the branch was put in front
    obtain ⟨inner, hp', rfl⟩ := List.prefix_map_iff.1 ht
    have hq' : inner <+: q.2 := (List.prefix_map_iff_of_injective List.cons_injective).1 hu
    rw [List.length_map]
    exact h.agree p.1 q.1 p.2 q.2 inner hp hq hp' hq'

/-- Variables that share no ellipsis do not interfere. -/
theorem append (h : Shaped trails σ) (hmore : Shaped more σ)
    (hapart : ∀ p ∈ trails, ∀ q ∈ more, ∀ shared, shared <+: p.2 → shared <+: q.2 → shared = []) :
    Shaped (trails ++ more) σ where
  hasDepth name trail hmem :=
    (List.mem_append.1 hmem).elim (h.hasDepth name trail) (hmore.hasDepth name trail)
  agree x y t u shared hx hy ht hu := by
    -- two variables of the same part agree as before; those of different parts share nothing
    rcases List.mem_append.1 hx with hx | hx <;> rcases List.mem_append.1 hy with hy | hy
    · exact h.agree x y t u shared hx hy ht hu
    · rw [hapart _ hx _ hy shared ht hu]
      trivial
    · rw [hapart _ hy _ hx shared hu ht]
      trivial
    · exact hmore.agree x y t u shared hx hy ht hu

/-- Under an ellipsis each variable has the column of its trees in the repetitions. -/
theorem repeated {rows : List Assignment} (hrows : ∀ row ∈ rows, Shaped trails row)
    (hcolumns : ∀ name trail, (name, trail) ∈ trails → σ name = .repeated (rows.map (· name))) :
    Shaped trails.repeated σ := by
  -- the rows are as deep as the repeated pattern says, with a branch in front of each trail
  have hbelow : ∀ row ∈ rows, Shaped (trails.below true) row := fun row hrow =>
    (hrows row hrow).below true
  have hcolumns' : ∀ name trail, (name, trail) ∈ trails.below true →
      σ name = .repeated (rows.map (· name)) := by
    intro name trail hmem
    obtain ⟨p, hp, heq⟩ := List.mem_map.1 hmem
    cases heq
    exact hcolumns p.1 p.2 hp
  constructor
  · intro name trail hmem
    obtain ⟨p, hp, heq⟩ := List.mem_map.1 hmem
    cases heq
    rw [hcolumns' p.1 p.2 hp]
    intro tree htree
    obtain ⟨row, hrow, rfl⟩ := List.mem_map.1 htree
    exact (hbelow row hrow).hasDepth p.1 p.2 hp
  · -- the first place is shared by all, where the number of rows has to agree; below it, each row
    intro x y t u shared hx hy ht hu
    obtain ⟨p, hp, heq⟩ := List.mem_map.1 hx
    cases heq
    obtain ⟨q, hq, heq⟩ := List.mem_map.1 hy
    cases heq
    rcases List.prefix_cons_iff.1 ht with rfl | ⟨inner, rfl, hp'⟩
    · trivial
    · obtain ⟨-, hq'⟩ := List.cons_prefix_cons.1 hu
      rw [hcolumns' p.1 p.2 hp, hcolumns' q.1 q.2 hq, List.length_cons]
      change List.Forall₂ _ (rows.map (· p.1)) (rows.map (· q.1))
      rw [List.forall₂_map_left_iff, List.forall₂_map_right_iff, List.forall₂_same]
      intro row hrow
      exact (hbelow row hrow).agree p.1 q.1 p.2 q.2 inner hp hq hp' hq'

end Shaped

/-- Places on different branches are different. -/
theorem Pattern.Trails.below_apart {branch other : Bool} (hne : branch ≠ other)
    {trails more : Trails} :
    ∀ p ∈ trails.below branch, ∀ q ∈ more.below other, ∀ shared, shared <+: p.2 → shared <+: q.2 →
      shared = [] := by
  intro p hp q hq shared ht hu
  obtain ⟨p, -, rfl⟩ := List.mem_map.1 hp
  obtain ⟨q, -, rfl⟩ := List.mem_map.1 hq
  obtain ⟨inner, -, rfl⟩ := List.prefix_map_iff.1 ht
  obtain ⟨inner', -, heq⟩ := List.prefix_map_iff.1 hu
  -- a shared place would begin with both branches
  cases inner with
  | nil => rfl
  | cons place inner =>
    cases inner' with
    | nil => cases heq
    | cons place' inner' =>
      rw [List.map_cons, List.map_cons] at heq
      exact absurd (List.cons.inj (List.cons.inj heq).1).1 hne

/-- **What a pattern stands for determines the shape of its trees.** -/
theorem Pattern.Yields.shaped {sameBinding : String → Bool} {p : Pattern} {σ : Assignment}
    {forms : List Value} (h : p.Yields sameBinding σ forms) : Shaped p.trails σ := by
  induction p generalizing σ forms with
  | empty => exact ⟨nofun, nofun⟩
  | «variable» name rest ih =>
    obtain ⟨form, others, -, hname, hrest⟩ := h
    -- the variable itself is under no ellipsis, so it agrees with others to no depth at all
    have hhere : Shaped [(name, [])] σ := by
      constructor
      · intro x t hmem
        cases List.mem_singleton.1 hmem
        rw [hname]
        trivial
      · intro x y t u shared hx _ ht _
        cases List.mem_singleton.1 hx
        rw [List.prefix_nil.1 ht]
        trivial
    refine ((ih hrest).below false).append hhere ?_
    intro p _ q hq shared _ hu
    cases List.mem_singleton.1 hq
    exact List.prefix_nil.1 hu
  | literal name rest ih =>
    obtain ⟨others, -, -, hrest⟩ := h
    exact (ih hrest).below false
  | sublist head rest ihHead ihRest =>
    obtain ⟨elements, self, others, -, hhead, hrest⟩ := h
    exact ((ihRest hrest).below false).append ((ihHead hhead).below true)
      (Trails.below_apart Bool.false_ne_true)
  | repetition repeated names ih =>
    -- each repetition has its own assignment, and a variable the column of its trees in them
    obtain ⟨rows, hcolumns, hrows⟩ := h
    have hshaped : ∀ row ∈ rows, Shaped repeated.trails row :=
      forall_mem_of_forall₂ hrows.flip (fun _ _ => trivial) fun form row _ hyields => ih hyields
    exact Shaped.repeated hshaped fun name trail hmem =>
      hcolumns name (mem_vars_of_mem_trails hmem)

/-! ### Templates that follow a pattern -/

namespace Template

mutual

/-- Whether a template under ellipses that stand for those at `levels` follows a pattern with these
trails. Each variable has to be under its own ellipses first of all; what other ellipses are
further inside does not matter to it. -/
def Follows (trails : Trails) (levels : List Place) : Value → Prop
  | .symbol name => ∀ trail, (name, trail) ∈ trails → trail <+: levels
  | .list elements _ => FollowsAll trails levels false elements
  | _ => True

/-- The same for the elements of a list. Each ellipsis after an element stands for an ellipsis of
the pattern, the last one outermost, and some variable in the element has it or one further inside
among its own. -/
def FollowsAll (trails : Trails) (levels : List Place) (after : Bool) : List Value → Prop
  | [] => True
  | element :: rest =>
    if after && element.isEllipsis then FollowsAll trails levels true rest
    else
      (∃ marks : List Place, marks.length = leadingEllipses rest
          ∧ Follows trails (levels ++ marks) element
          ∧ ∀ i < marks.length, ∃ name ∈ symbolsFrom [] element, ∃ trail, (name, trail) ∈ trails
              ∧ levels.length + i < trail.length)
        ∧ FollowsAll trails levels true rest

end

variable {trails : Trails} {levels : List Place}

/-- An element with ellipses that stand for those at `marks`. -/
theorem FollowsAll.cons (marks : List Place) {after : Bool} {element : Value} {rest : List Value}
    (hfirst : element.isEllipsis = false) (hcount : marks.length = leadingEllipses rest)
    (helement : Follows trails (levels ++ marks) element)
    (hused : ∀ i < marks.length, ∃ name ∈ symbolsFrom [] element, ∃ trail,
      (name, trail) ∈ trails ∧ levels.length + i < trail.length)
    (hrest : FollowsAll trails levels true rest) :
    FollowsAll trails levels after (element :: rest) := by
  rw [FollowsAll, hfirst, Bool.and_false, if_neg Bool.false_ne_true]
  exact ⟨⟨marks, hcount, helement, hused⟩, hrest⟩

/-- The ellipses after an element. -/
theorem FollowsAll.skip {rest : List Value} (h : FollowsAll trails levels true rest) :
    FollowsAll trails levels true (.symbol ellipsis :: rest) := by
  have hskip : (true && (Value.symbol ellipsis).isEllipsis) = true := by
    rw [Value.isEllipsis_symbol, beq_self_eq_true, Bool.and_true]
  rw [FollowsAll, if_pos hskip]
  exact h

/-- No level is beside the ellipses of a variable inside it: they are the first levels, or more than
the levels so far. -/
def Along (trails : Trails) (levels : List Place) (names : List String) : Prop :=
  ∀ name ∈ names, ∀ trail, (name, trail) ∈ trails → trail <+: levels ∨ levels <+: trail

theorem Along.outer {marks : List Place} {names : List String}
    (h : Along trails (levels ++ marks) names) : Along trails levels names := by
  intro name hname trail htrail
  rcases h name hname trail htrail with hle | hge
  · exact List.prefix_or_prefix_of_prefix hle (List.prefix_append levels marks)
  · exact .inr ((List.prefix_append levels marks).trans hge)

/-- The next level is that of every variable inside it that has more levels. -/
theorem Along.prefix_of_lt {mark : Place} {names : List String}
    (h : Along trails (levels ++ [mark]) names) {name : String} {trail : List Place}
    (hname : name ∈ names) (htrail : (name, trail) ∈ trails)
    (hmore : levels.length < trail.length) : levels ++ [mark] <+: trail := by
  rcases h name hname trail htrail with hle | hge
  · have hlength : (levels ++ [mark]).length = levels.length + 1 := List.length_append
    have hlength' := hle.length_le
    have heq : trail = levels ++ [mark] := hle.eq_of_length (by omega)
    exact heq ▸ List.prefix_rfl
  · exact hge

mutual

theorem along_of_follows (hdots : ∀ trail, (ellipsis, trail) ∉ trails) {levels : List Place}
    {template : Value} (h : Follows trails levels template) :
    Along trails levels (symbolsFrom [] template) := by
  intro name hname trail htrail
  -- mutual with the elements of a list; only a symbol has a name of its own
  match template with
  | .symbol other =>
    obtain rfl := (mem_symbolsFrom_symbol other name).1 hname
    rw [Follows] at h
    exact .inl (h trail htrail)
  | .list elements self =>
    rw [Follows] at h
    exact along_of_followsAll hdots h name ((mem_symbolsFrom_list _ _ _).1 hname) trail htrail
  | .number _ _ | .string _ | .boolean _ | .primitive _ _ | .compound _ _ _ _ _
  | .transformer _ _ _ _ _ => cases hname

theorem along_of_followsAll (hdots : ∀ trail, (ellipsis, trail) ∉ trails) {levels : List Place}
    {after : Bool} {elements : List Value} (h : FollowsAll trails levels after elements) :
    Along trails levels (symbolsFromAll [] elements) := by
  intro name hname trail htrail
  match elements with
  | [] => cases hname
  | element :: rest =>
    rw [FollowsAll] at h
    rw [mem_symbolsFromAll_cons] at hname
    split at h
    · next hskip =>
      -- the ellipsis itself is no variable
      rcases hname with hhere | hrest
      · obtain rfl := Value.eq_of_isEllipsis (Bool.and_eq_true_iff.1 hskip).2
        obtain rfl := (mem_symbolsFrom_symbol _ _).1 hhere
        exact absurd htrail (hdots trail)
      · exact along_of_followsAll hdots h name hrest trail htrail
    · obtain ⟨⟨marks, -, helement, -⟩, hothers⟩ := h
      rcases hname with hhere | hrest
      · exact (along_of_follows hdots helement).outer name hhere trail htrail
      · exact along_of_followsAll hdots hothers name hrest trail htrail

end

/-! ### Bindings on the way through a template -/

/-- Bindings under so many levels of a template, for the names in it: of the tree of each variable,
and of the agreement of two of them, that much is left. -/
structure Ready (trails : Trails) (levels : List Place) (names : List String) (b : Bindings) :
    Prop where
  free : ∀ name ∈ names, (∀ trail, (name, trail) ∉ trails) → b.get? name = none
  bound : ∀ name ∈ names, ∀ trail, (name, trail) ∈ trails →
    ∃ tree, b.get? name = some tree ∧ tree.HasDepth (trail.length - levels.length)
  agree : ∀ x ∈ names, ∀ y ∈ names, ∀ t u shared, (x, t) ∈ trails → (y, u) ∈ trails →
    shared <+: t → shared <+: u →
    (b.assignment x).Agree (shared.length - levels.length) (b.assignment y)

namespace Ready

variable {names fewer : List String} {b : Bindings} {mark : Place}

theorem mono (h : Ready trails levels names b) (hsub : ∀ name ∈ fewer, name ∈ names) :
    Ready trails levels fewer b where
  free name hname := h.free name (hsub name hname)
  bound name hname := h.bound name (hsub name hname)
  agree x hx y hy := h.agree x (hsub x hx) y (hsub y hy)

/-- What is bound after a match. -/
theorem of_match {p : Pattern} {σ : Assignment} (hshaped : Shaped p.trails σ) (hb : p.Binds σ ∅ b)
    (names : List String) : Ready p.trails [] names b where
  free name _ hfree := by
    refine hb.outside name fun hvar => ?_
    obtain ⟨trail, htrail⟩ := Pattern.exists_mem_trails hvar
    exact hfree trail htrail
  bound name _ trail htrail :=
    ⟨σ name, hb.inside name (Pattern.mem_vars_of_mem_trails htrail),
      hshaped.hasDepth name trail htrail⟩
  agree x _ y _ t u shared hx hy ht hu := by
    -- what is bound is the assignment of the match, so its shape is that of the pattern
    have hassignment : ∀ name trail, (name, trail) ∈ p.trails → b.assignment name = σ name := by
      intro name trail htrail
      exact Bindings.assignment_of_get? (hb.inside name (Pattern.mem_vars_of_mem_trails htrail))
    rw [hassignment x t hx, hassignment y u hy]
    exact hshaped.agree x y t u shared hx hy ht hu

/-- Of a variable whose ellipses are all used up a form is left. -/
theorem ne_repeated (h : Ready trails levels names b) {name : String} (hname : name ∈ names)
    (hused : ∀ trail, (name, trail) ∈ trails → trail.length ≤ levels.length) (trees : List Tree) :
    b.get? name ≠ some (.repeated trees) := by
  intro htrees
  -- a variable at its own level has depth zero by now, so it is bound to a form
  by_cases hvar : ∃ trail, (name, trail) ∈ trails
  · obtain ⟨trail, htrail⟩ := hvar
    obtain ⟨tree, htree, hdepth⟩ := h.bound name hname trail htrail
    rw [Nat.sub_eq_zero_of_le (hused trail htrail)] at hdepth
    obtain ⟨value, rfl⟩ := Tree.exists_form_of_hasDepth hdepth
    rw [htree] at htrees
    cases htrees
  · rw [h.free name hname fun trail htrail => hvar ⟨trail, htrail⟩] at htrees
    cases htrees

/-- A variable with more ellipses is bound to its repetitions. -/
theorem get?_eq_repeated (h : Ready trails levels names b) {name : String} {trail : List Place}
    (hname : name ∈ names) (htrail : (name, trail) ∈ trails)
    (hmore : levels.length < trail.length) :
    b.get? name = some (.repeated (b.assignment name).repetitions)
      ∧ (b.assignment name).HasDepth (trail.length - (levels.length + 1) + 1) := by
  obtain ⟨tree, htree, hdepth⟩ := h.bound name hname trail htrail
  have hassignment : b.assignment name = tree := Bindings.assignment_of_get? htree
  -- levels are left, so the tree has a depth that is not zero
  have hlevel : trail.length - levels.length = trail.length - (levels.length + 1) + 1 := by omega
  rw [hlevel] at hdepth
  obtain ⟨trees, rfl, -⟩ := Tree.exists_repeated_of_hasDepth hdepth
  rw [hassignment]
  exact ⟨htree, hdepth⟩

/-- A variable whose ellipses are used up under one of its trails has none left under any. -/
theorem notMem_beyond (h : Ready trails levels names b) {name : String} {trail : List Place}
    (hname : name ∈ names) (htrail : (name, trail) ∈ trails)
    (hused : trail.length ≤ levels.length) : name ∉ trails.beyond levels.length := by
  intro hbeyond
  obtain ⟨other, hother, hmore⟩ := Trails.mem_beyond.1 hbeyond
  obtain ⟨tree, htree, hdepth⟩ := h.bound name hname trail htrail
  rw [Nat.sub_eq_zero_of_le hused] at hdepth
  obtain ⟨value, rfl⟩ := Tree.exists_form_of_hasDepth hdepth
  rw [(h.get?_eq_repeated hname hother hmore).1] at htree
  cases htree

/-- The bindings of one repetition: every variable with more ellipses is bound to its tree in it,
and all others are bound as outside. -/
structure Enters (trails : Trails) (levels : List Place) (names : List String) (place : Nat)
    (b r : Bindings) : Prop where
  lt : ∀ name ∈ names, name ∈ trails.beyond levels.length →
    place < (b.assignment name).repetitions.length
  get?_eq : ∀ name, r.get? name
    = if name ∈ names ∧ name ∈ trails.beyond levels.length
      then some (b.assignment.repetition place name) else b.get? name

section Enters

variable {r : Bindings} {place : Nat}

theorem bound_of_enters (h : Ready trails levels names b)
    (hr : Enters trails levels names place b r)
    {name : String} (hname : name ∈ names) {trail : List Place} (htrail : (name, trail) ∈ trails) :
    ∃ tree, r.get? name = some tree ∧ tree.HasDepth (trail.length - (levels.length + 1)) := by
  by_cases hmore : levels.length < trail.length
  · have hbeyond := Trails.mem_beyond.2 ⟨trail, htrail, hmore⟩
    refine ⟨b.assignment.repetition place name, ?_, ?_⟩
    · rw [hr.get?_eq, if_pos ⟨hname, hbeyond⟩]
    · exact Assignment.hasDepth_repetition (h.get?_eq_repeated hname htrail hmore).2
        (hr.lt name hname hbeyond)
  · -- the variable is bound to a form, which stays what it is
    have hused : trail.length ≤ levels.length := Nat.le_of_not_lt hmore
    obtain ⟨tree, htree, hdepth⟩ := h.bound name hname trail htrail
    refine ⟨tree, ?_, ?_⟩
    · rw [hr.get?_eq, if_neg fun hboth => h.notMem_beyond hname htrail hused hboth.2, htree]
    · have hzero : trail.length - (levels.length + 1) = trail.length - levels.length := by omega
      rwa [hzero]

theorem agree_of_enters (h : Ready trails levels names b)
    (hr : Enters trails levels names place b r)
    {x y : String} (hx : x ∈ names) (hy : y ∈ names) {t u shared : List Place}
    (ht : (x, t) ∈ trails) (hu : (y, u) ∈ trails) (hshared : shared <+: t)
    (hshared' : shared <+: u) :
    (r.assignment x).Agree (shared.length - (levels.length + 1)) (r.assignment y) := by
  by_cases hmore : levels.length + 1 < shared.length
  · -- both variables have the shared levels, so both have stepped into the repetition
    have hbeyond : ∀ name trail, (name, trail) ∈ trails → shared <+: trail →
        name ∈ trails.beyond levels.length := by
      intro name trail htrail hprefix
      refine Trails.mem_beyond.2 ⟨trail, htrail, ?_⟩
      have hle := hprefix.length_le
      omega
    -- in the row each of them is what stands at its place of the repetition
    have hassignment : ∀ name ∈ names, ∀ trail, (name, trail) ∈ trails → shared <+: trail →
        r.assignment name = b.assignment.repetition place name := by
      intro name hname trail htrail hprefix
      rw [Bindings.assignment, hr.get?_eq, if_pos ⟨hname, hbeyond name trail htrail hprefix⟩]
      rfl
    have hlevel : shared.length - levels.length = shared.length - (levels.length + 1) + 1 := by
      omega
    have hagree := h.agree x hx y hy t u shared ht hu hshared hshared'
    rw [hlevel] at hagree
    rw [hassignment x hx t ht hshared, hassignment y hy u hu hshared']
    exact Assignment.agree_repetition hagree (hr.lt x hx (hbeyond x t ht hshared))
  · rw [Nat.sub_eq_zero_of_le (Nat.le_of_not_lt hmore)]
    trivial

theorem of_enters (h : Ready trails levels names b)
    (hr : Enters trails levels names place b r) :
    Ready trails (levels ++ [mark]) names r := by
  have hlength : (levels ++ [mark]).length = levels.length + 1 := List.length_append
  -- one field for what is not bound, one for depths, one for agreement; each is one level deeper
  constructor
  · intro name hname hfree
    have hbeyond : name ∉ trails.beyond levels.length := by
      intro hbeyond
      obtain ⟨trail, htrail, -⟩ := Trails.mem_beyond.1 hbeyond
      exact hfree trail htrail
    rw [hr.get?_eq, if_neg fun hboth => hbeyond hboth.2, h.free name hname hfree]
  · intro name hname trail htrail
    rw [hlength]
    exact h.bound_of_enters hr hname htrail
  · intro x hx y hy t u shared ht hu hshared hshared'
    rw [hlength]
    exact h.agree_of_enters hr hx hy ht hu hshared hshared'

end Enters

/-- Variables with the same next level have as many repetitions. -/
theorem length_repetitions_eq (h : Ready trails levels names b)
    (hnext : Along trails (levels ++ [mark]) names) {x y : String} (hx : x ∈ names)
    (hy : y ∈ names) (hx' : x ∈ trails.beyond levels.length)
    (hy' : y ∈ trails.beyond levels.length) :
    (b.assignment x).repetitions.length = (b.assignment y).repetitions.length := by
  obtain ⟨t, ht, htmore⟩ := Trails.mem_beyond.1 hx'
  obtain ⟨u, hu, humore⟩ := Trails.mem_beyond.1 hy'
  have hagree := h.agree x hx y hy t u (levels ++ [mark]) ht hu
    (hnext.prefix_of_lt hx ht htmore) (hnext.prefix_of_lt hy hu humore)
  rw [List.length_append, Nat.add_sub_cancel_left] at hagree
  exact hagree.length_eq

/-- **One more level.** If the variables in an element that have more ellipses all have the next
level as theirs, and there is such a variable, then an ellipsis after the element finds its
repetitions. -/
theorem exists_repetitions (h : Ready trails levels names b)
    (hnext : Along trails (levels ++ [mark]) names)
    (hused : ∃ name ∈ names, ∃ trail, (name, trail) ∈ trails ∧ levels.length < trail.length) :
    ∃ rows, repetitions names b = .ok rows
      ∧ ∀ r ∈ rows, Ready trails (levels ++ [mark]) names r := by
  obtain ⟨first, hfirst, trail, htrail, hmore⟩ := hused
  have hbeyondFirst := Trails.mem_beyond.2 ⟨trail, htrail, hmore⟩
  -- the variable that has levels left gives the number of rows, and every other one agrees with it
  have hcount : ∀ name ∈ names, name ∈ trails.beyond levels.length →
      (b.assignment name).repetitions.length = (b.assignment first).repetitions.length :=
    fun name hname hbeyond => h.length_repetitions_eq hnext hname hfirst hbeyond hbeyondFirst
  have hvars : ∀ name ∈ names, name ∈ trails.beyond levels.length → b.get? name
      = some (.repeated (((List.range (b.assignment first).repetitions.length).map
          b.assignment.repetition).map (· name))) := by
    intro name hname hbeyond
    obtain ⟨trail', htrail', hmore'⟩ := Trails.mem_beyond.1 hbeyond
    rw [(h.get?_eq_repeated hname htrail' hmore').1,
      ← Assignment.repetitions_eq_column (hcount name hname hbeyond)]
  -- variables without a level left are the same in each row
  have hothers : ∀ name ∈ names, name ∉ trails.beyond levels.length →
      ∀ trees, b.get? name ≠ some (.repeated trees) := by
    intro name hname hbeyond
    refine h.ne_repeated hname fun trail' htrail' => Nat.le_of_not_lt fun hlt => ?_
    exact hbeyond (Trails.mem_beyond.2 ⟨trail', htrail', hlt⟩)
  obtain ⟨rows, hrows, hbound⟩ := repetitions_eq_ok hvars hothers ⟨first, hfirst, hbeyondFirst⟩
  refine ⟨rows, hrows, ?_⟩
  have hplaces : ∀ place ∈ List.range (b.assignment first).repetitions.length,
      place < (b.assignment first).repetitions.length := fun place => List.mem_range.1
  refine forall_mem_of_forall₂ (List.forall₂_map_left_iff.1 hbound) hplaces ?_
  -- each row is the binding at one place of the repetition
  intro place r hplace hr
  refine h.of_enters ⟨fun name hname hbeyond => ?_, hr⟩
  rw [hcount name hname hbeyond]
  exact hplace

end Ready

/-! ### Instances -/

/-- **Copies under several ellipses**, each of which stands for the level at `marks`. -/
theorem exists_copies {build : Bindings → Except SyntaxFault Value} {names : List String}
    {marks : List Place} {more : Nat} (hcount : marks.length = more + 1) {levels : List Place}
    {b : Bindings} (h : Ready trails levels names b) (halong : Along trails (levels ++ marks) names)
    (hused : ∀ i < marks.length, ∃ name ∈ names, ∃ trail, (name, trail) ∈ trails
      ∧ levels.length + i < trail.length)
    (hbuild : ∀ r, Ready trails (levels ++ marks) names r → ∃ copy, build r = .ok copy) :
    ∃ vs, copies build names more b = .ok vs := by
  induction more generalizing marks levels b with
  -- one ellipsis: one copy for each row
  | zero =>
    obtain ⟨mark, rfl⟩ := List.length_eq_one_iff.1 hcount
    obtain ⟨rows, hrows, hready⟩ := h.exists_repetitions halong (hused 0 (Nat.zero_lt_succ 0))
    obtain ⟨vs, hvs⟩ := exists_forall₂ fun r hr => hbuild r (hready r hr)
    refine ⟨vs, ?_⟩
    rw [copies]
    exact bind_eq_ok_iff.2 ⟨rows, hrows, mapM_ok_of_forall₂ hvs⟩
  -- one more ellipsis: the copies of each row, made with one mark less, are spliced
  | succ more ih =>
    obtain ⟨mark, inner, rfl⟩ := List.exists_cons_of_length_eq_add_one hcount
    have hsplit : levels ++ mark :: inner = levels ++ [mark] ++ inner := by
      rw [List.append_assoc]
      rfl
    have hlength : (levels ++ [mark]).length = levels.length + 1 := List.length_append
    rw [hsplit] at halong hbuild
    obtain ⟨rows, hrows, hready⟩ := h.exists_repetitions halong.outer
      (hused 0 (Nat.zero_lt_succ _))
    have hinner : ∀ i < inner.length, ∃ name ∈ names, ∃ trail, (name, trail) ∈ trails
        ∧ (levels ++ [mark]).length + i < trail.length := by
      intro i hi
      obtain ⟨name, hname, trail, htrail, hlt⟩ := hused (i + 1) (Nat.succ_lt_succ hi)
      exact ⟨name, hname, trail, htrail, by omega⟩
    obtain ⟨vs, hvs⟩ := exists_forall₂ fun r hr =>
      ih (Nat.succ.inj hcount) (hready r hr) halong hinner hbuild
    refine ⟨vs.flatten, ?_⟩
    rw [copies]
    refine map_eq_ok_iff.2 ⟨vs, ?_, rfl⟩
    exact bind_eq_ok_iff.2 ⟨rows, hrows, mapM_ok_of_forall₂ hvs⟩

/-- The copies of an element and the ellipses after it. -/
theorem exists_elementCopies {element : Value} {marks : List Place} {b : Bindings}
    (h : Ready trails levels (symbolsFrom [] element) b)
    (halong : Along trails (levels ++ marks) (symbolsFrom [] element))
    (hused : ∀ i < marks.length, ∃ name ∈ symbolsFrom [] element, ∃ trail,
      (name, trail) ∈ trails ∧ levels.length + i < trail.length)
    (hbuild : ∀ r, Ready trails (levels ++ marks) (symbolsFrom [] element) r →
      ∃ copy, instantiate element r = .ok copy) :
    ∃ vs, elementCopies element marks.length b = .ok vs := by
  -- without an ellipsis there is one copy and no step into a repetition
  cases hcount : marks.length with
  | zero =>
    obtain rfl := List.length_eq_zero_iff.1 hcount
    rw [List.append_nil] at hbuild
    obtain ⟨copy, hcopy⟩ := hbuild b h
    exact ⟨[copy], by rw [elementCopies, hcopy]; rfl⟩
  | succ more =>
    rw [elementCopies]
    exact exists_copies hcount h halong hused hbuild

mutual

theorem exists_instance (hdots : ∀ trail, (ellipsis, trail) ∉ trails) {levels : List Place}
    {template : Value} {b : Bindings} (hfollows : Follows trails levels template)
    (h : Ready trails levels (symbolsFrom [] template) b) :
    ∃ copy, instantiate template b = .ok copy := by
  -- mutual with the elements of a list, by their size
  match template with
  | .symbol name =>
    rw [Follows] at hfollows
    have hname : name ∈ symbolsFrom [] (.symbol name) := (mem_symbolsFrom_symbol _ _).2 rfl
    rw [instantiate]
    split
    · exact ⟨_, rfl⟩
    · exact ⟨_, rfl⟩
    · -- a symbol that is still repeated would need more ellipses than it has
      next trees htrees =>
      refine absurd htrees (h.ne_repeated hname (fun trail htrail => ?_) trees)
      exact (hfollows trail htrail).length_le
  | .list elements self =>
    rw [Follows] at hfollows
    obtain ⟨vs, hvs⟩ := exists_instances hdots hfollows
      (h.mono fun name hname => (mem_symbolsFrom_list _ _ _).2 hname)
    exact ⟨.ofList vs, by rw [instantiate, hvs]; rfl⟩
  | .number _ _ | .string _ | .boolean _ | .primitive _ _ | .compound _ _ _ _ _
  | .transformer _ _ _ _ _ => exact ⟨_, by simp only [instantiate]; rfl⟩

theorem exists_instances (hdots : ∀ trail, (ellipsis, trail) ∉ trails) {levels : List Place}
    {after : Bool} {elements : List Value} {b : Bindings}
    (hfollows : FollowsAll trails levels after elements)
    (h : Ready trails levels (symbolsFromAll [] elements) b) :
    ∃ copies, instantiateAll after elements b = .ok copies := by
  match elements with
  | [] => exact ⟨[], by rw [instantiateAll]⟩
  | element :: rest =>
    have hrest : Ready trails levels (symbolsFromAll [] rest) b :=
      h.mono fun name hname => (mem_symbolsFromAll_cons _ _ _).2 (.inr hname)
    have hhere : Ready trails levels (symbolsFrom [] element) b :=
      h.mono fun name hname => (mem_symbolsFromAll_cons _ _ _).2 (.inl hname)
    rw [FollowsAll] at hfollows
    rw [instantiateAll_cons]
    split
    · next hskip =>
      -- the copies of this ellipsis were made at the element before it
      rw [if_pos hskip] at hfollows
      exact exists_instances hdots hfollows hrest
    · -- an element is copied as often as its ellipses say, and stands before the others
      next hskip =>
      rw [if_neg hskip] at hfollows
      obtain ⟨⟨marks, hcount, helement, hused⟩, hothers⟩ := hfollows
      obtain ⟨others, hothers⟩ := exists_instances hdots hothers hrest
      obtain ⟨here, hhere⟩ := exists_elementCopies hhere (along_of_follows hdots helement) hused
        fun r hr => exists_instance hdots helement hr
      rw [hcount] at hhere
      exact ⟨here ++ others, bind_eq_ok_iff.2 ⟨here, hhere, map_eq_ok_iff.2 ⟨others, hothers, rfl⟩⟩⟩

end

end Template

/-! ### Transformers whose templates follow their patterns -/

namespace CompiledPattern

open Template

variable {literals : List String} {pattern template : Value} {c : CompiledPattern}

theorem exists_copy_of_follows (hc : Transformer.compileClause literals pattern = .ok c)
    (hfollows : Follows c.root.trails [] template) {sameBinding : String → Bool} {form : Value}
    {b : Bindings} (h : c.matchForm? sameBinding form = some b) :
    ∃ copy, instantiate template b = .ok copy := by
  obtain ⟨keyword, operands, self, -, hcompile⟩ := Transformer.compileClause_eq_ok hc
  obtain ⟨elements, _, -, hw, -, -⟩ := Pattern.compile_spec hcompile
  obtain ⟨σ, forms, self', rfl, hyields, hbinds⟩ := exists_yields_of_matchForm? hcompile h
  have hdots : ∀ trail, (ellipsis, trail) ∉ c.root.trails := by
    intro trail htrail
    exact (hw.of_mem_vars (Pattern.mem_vars_of_mem_trails htrail)).2 rfl
  exact exists_instance hdots hfollows (Ready.of_match hyields.shaped hbinds _)

/-- **A template that follows the ellipses of its pattern never fails to expand.** Whatever form
matches the pattern, in whatever environments and with whatever numbers of repetitions, the template
has an instance. So a transformer expands every use of which this is the first clause that
matches. -/
theorem exists_instance_of_follows (hc : Transformer.compileClause literals pattern = .ok c)
    (hfollows : Follows c.root.trails [] template) (store : Store) (definition use : Env) :
    (∀ form b, c.matchForm? (store.agree definition use) form = some b →
      ∃ copy, instantiate template b = .ok copy)
      ∧ ∀ name earlier later form b,
        Transformer.firstInstance? (store.agree definition use) literals (.ofList form.tail)
          earlier = .ok none →
        c.matchForm? (store.agree definition use) (.ofList form.tail) = some b →
        ∃ expansion, Transformer.expand store name literals
            (earlier ++ (pattern, template) :: later)
          definition form use = .ok expansion := by
  constructor
  · intro form b h
    exact exists_copy_of_follows hc hfollows h
  · -- the clauses before have no match, so this clause is the one that is used
    intro name earlier later form b hearlier h
    obtain ⟨copy, hcopy⟩ := exists_copy_of_follows hc hfollows h
    exact ⟨copy, (Transformer.expand_first hearlier hc h name).trans hcopy⟩

/-- The pattern `(_ (k v ...) ...)`. -/
def groups : Value :=
  .ofList [.symbol "_", .ofList [.symbol "k", .symbol "v", .symbol "..."], .symbol "..."]

/-- What `groups` compiles to. -/
def compiledGroups : CompiledPattern where
  root := .repetition (.sublist (.variable "k" (.repetition (.variable "v" .empty) ["v"])) .empty)
    ["v", "k"]
  depths := .ofPairs [("v", 2), ("k", 1)]

/-- The template `((k (k v) ...) ... v ... ...)`, which has one variable under more ellipses than in
the pattern, and two ellipses in a row. -/
def pairedGroups : Value :=
  .ofList [.ofList [.symbol "k", .ofList [.symbol "k", .symbol "v"], .symbol "..."], .symbol "...",
    .symbol "v", .symbol "...", .symbol "..."]

theorem follows_pairedGroups : Follows compiledGroups.root.trails [] pairedGroups := by
  let place : Place := [true, true, false]
  have htrails : compiledGroups.root.trails = [("v", [[], place]), ("k", [[]])] := rfl
  rw [htrails]
  -- `k` belongs to the outer repetition, and may stand at any level below it
  have hk : ∀ inner, Follows [("v", [[], place]), ("k", [[]])] ([] :: inner) (.symbol "k") := by
    intro inner
    simp [Follows]
  have hv : Follows [("v", [[], place]), ("k", [[]])] [[], place] (.symbol "v") := by
    simp [Follows]
  have hpair : Follows [("v", [[], place]), ("k", [[]])] [[], place]
      (.ofList [.symbol "k", .symbol "v"]) :=
    .cons [] rfl rfl (hk _) nofun (.cons [] rfl rfl hv nofun trivial)
  -- in a group the inner ellipsis repeats `v`
  have hgroup : Follows [("v", [[], place]), ("k", [[]])] [[]]
      (.ofList [.symbol "k", .ofList [.symbol "k", .symbol "v"], .symbol "..."]) := by
    refine .cons [] rfl rfl (hk []) nofun (.cons [place] rfl rfl hpair ?_ (.skip trivial))
    intro i hi
    refine ⟨"v", by decide, [[], place], by simp, ?_⟩
    have hlt : i < 1 := hi
    change 1 + i < 2
    omega
  -- behind the groups two ellipses after `v` use both of its levels
  refine .cons [[]] rfl rfl hgroup ?_
    (.skip (.cons [[], place] rfl rfl hv ?_ (.skip (.skip trivial))))
  · intro i hi
    exact ⟨"k", by decide, [[]], by simp, by simpa using hi⟩
  · intro i hi
    exact ⟨"v", by decide, [[], place], by simp, by simpa using hi⟩

theorem exists_instance_of_follows_groups :
    (∃ copy, instantiate pairedGroups
      (.ofPairs
        [("v", .repeated [.repeated [.form (.string "1"), .form (.string "2")], .repeated []]),
        ("k", .repeated [.form (.symbol "a"), .form (.symbol "b")])]) = .ok copy)
      ∧ ∃ expansion, Transformer.expand .empty "pairs" [] [(groups, pairedGroups)] []
          [.symbol "pairs", .ofList [.symbol "a", .string "1", .string "2"],
            .ofList [.symbol "b"]] []
        = .ok expansion := by
  have hc : Transformer.compileClause [] groups = .ok compiledGroups := rfl
  obtain ⟨hinstance, hexpand⟩ := exists_instance_of_follows hc follows_pairedGroups .empty [] []
  let operands : Value :=
    .ofList [.ofList [.symbol "a", .string "1", .string "2"], .ofList [.symbol "b"]]
  exact ⟨hinstance operands _ rfl, hexpand "pairs" [] [] _ _ rfl rfl⟩

end CompiledPattern

end SmallLisp
