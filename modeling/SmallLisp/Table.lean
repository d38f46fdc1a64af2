/-!
# Insertion-ordered tables

A table maps names to entries and remembers the order in which the names came. Setting a name that
is present replaces its entry in place, so no name ever moves; `get?_set` and `names_set` are the
two rules.
-/

namespace SmallLisp

/-- A finite map from names, in the order in which the names were first set. -/
structure Table (α : Type) where
  entries : List (String × α)
  deriving Repr, Inhabited

namespace Table

variable {α β : Type}

/-- The table without names. -/
def empty : Table α := ⟨[]⟩

instance : EmptyCollection (Table α) := ⟨empty⟩

/-- The entry of the first pair of that name. -/
def findEntry (name : String) : List (String × α) → Option α
  | [] => none
  | p :: rest => if p.1 = name then some p.2 else findEntry name rest

/-- The entry of a name. -/
def get? (t : Table α) (name : String) : Option α :=
  findEntry name t.entries

/-- Whether a name is present. -/
def contains (t : Table α) (name : String) : Bool :=
  t.entries.any (·.1 == name)

/-- The names, in order. -/
def names (t : Table α) : List String :=
  t.entries.map Prod.fst

/-- How many names the table has. -/
def size (t : Table α) : Nat :=
  t.entries.length

/-- Replaces the entry of the first pair of that name, or appends a pair. -/
def setEntry (name : String) (entry : α) : List (String × α) → List (String × α)
  | [] => [(name, entry)]
  | p :: rest => if p.1 = name then (name, entry) :: rest else p :: setEntry name entry rest

/-- Gives a name an entry: in place if the name is present, else at the end. -/
def set (t : Table α) (name : String) (entry : α) : Table α :=
  ⟨setEntry name entry t.entries⟩

/-- Sets every pair of the list in turn, so the last of equal names wins. -/
def setAll (t : Table α) (pairs : List (String × α)) : Table α :=
  pairs.foldl (fun t p => t.set p.1 p.2) t

/-- The table of a list of pairs. -/
def ofPairs (pairs : List (String × α)) : Table α :=
  setAll empty pairs

/-- The same names with other entries. -/
def map (f : α → β) (t : Table α) : Table β :=
  ⟨t.entries.map fun p => (p.1, f p.2)⟩

/-! ### Small laws -/

@[simp] theorem names_empty : (empty : Table α).names = [] := rfl

@[simp] theorem get?_empty (name : String) : (empty : Table α).get? name = none := rfl

theorem findEntry_setEntry (name other : String) (entry : α) (ps : List (String × α)) :
    findEntry other (setEntry name entry ps)
      = if other = name then some entry else findEntry other ps := by
  induction ps with
  | nil => simp [setEntry, findEntry, eq_comm]
  | cons p rest ih => grind [setEntry, findEntry]

/-- After a write the name has the new entry and every other name its old one. -/
@[simp] theorem get?_set (t : Table α) (name other : String) (entry : α) :
    (t.set name entry).get? other = if other = name then some entry else t.get? other :=
  findEntry_setEntry name other entry t.entries

theorem get?_set_self (t : Table α) (name : String) (entry : α) :
    (t.set name entry).get? name = some entry := by
  rw [get?_set, if_pos rfl]

theorem contains_iff_mem_names (t : Table α) (name : String) :
    t.contains name = true ↔ name ∈ t.names := by
  simp only [contains, names, List.any_eq_true, List.mem_map, beq_iff_eq]

theorem map_fst_setEntry (name : String) (entry : α) (ps : List (String × α)) :
    (setEntry name entry ps).map Prod.fst
      = if name ∈ ps.map Prod.fst then ps.map Prod.fst else ps.map Prod.fst ++ [name] := by
  induction ps with
  | nil => simp [setEntry]
  | cons p rest ih =>
    -- the entry is the first one, and is replaced where it stands
    by_cases hp : p.1 = name
    · simp [setEntry, hp]
    · have hn : name ≠ p.1 := fun h => hp h.symm
      by_cases hr : name ∈ rest.map Prod.fst
      · simp only [setEntry, hp, if_false, List.map_cons, ih, hr, if_true, List.mem_cons, hn,
          false_or]
      · simp only [setEntry, hp, if_false, List.map_cons, ih, hr, List.mem_cons, hn, false_or,
          List.cons_append]

/-- A write keeps the names where they are and appends a name that is new. -/
theorem names_set (t : Table α) (name : String) (entry : α) :
    (t.set name entry).names = if name ∈ t.names then t.names else t.names ++ [name] :=
  map_fst_setEntry name entry t.entries

/-- After a write the name is there. -/
theorem contains_set (t : Table α) (name other : String) (entry : α) :
    (t.set name entry).contains other = (other == name || t.contains other) := by
  rw [Bool.eq_iff_iff, contains_iff_mem_names, names_set, Bool.or_eq_true, beq_iff_eq,
    contains_iff_mem_names]
  split
  · next hmem => exact ⟨.inr, fun h => h.elim (fun heq => heq ▸ hmem) id⟩
  · rw [List.mem_append, List.mem_singleton, or_comm]

/-- A name without an entry is a name that is not there. -/
theorem get?_eq_none_iff (t : Table α) (name : String) : t.get? name = none ↔ name ∉ t.names := by
  obtain ⟨entries⟩ := t
  induction entries with
  | nil => simp [get?, findEntry, names]
  | cons p rest ih =>
    by_cases hp : p.1 = name
    · simp [get?, findEntry, names, hp]
    · have hn : name ≠ p.1 := fun h => hp h.symm
      simpa [get?, findEntry, names, hp, hn] using ih

/-- The names that are there are those with an entry. -/
theorem mem_names_iff (t : Table α) (name : String) :
    name ∈ t.names ↔ ∃ entry, t.get? name = some entry := by
  cases h : t.get? name with
  | none => simpa using (get?_eq_none_iff t name).1 h
  | some entry =>
    refine ⟨fun _ => ⟨entry, rfl⟩, fun _ => Decidable.byContradiction fun hnot => ?_⟩
    rw [(get?_eq_none_iff t name).2 hnot] at h
    cases h

theorem mem_entries_of_get? {t : Table α} {name : String} {entry : α}
    (h : t.get? name = some entry) : (name, entry) ∈ t.entries := by
  obtain ⟨entries⟩ := t
  induction entries with
  | nil => simp [get?, findEntry] at h
  | cons p rest ih =>
    by_cases hp : p.1 = name
    · simp only [get?, findEntry, hp, if_true, Option.some.injEq] at h
      subst hp h
      exact List.mem_cons_self
    · simp only [get?, findEntry, hp, if_false] at h
      exact List.mem_cons_of_mem p (ih h)

/-- Where no name is repeated, an entry is what its name is bound to. -/
theorem get?_of_mem_entries {t : Table α} (h : t.names.Nodup) {name : String} {entry : α}
    (hmem : (name, entry) ∈ t.entries) : t.get? name = some entry := by
  obtain ⟨entries⟩ := t
  induction entries with
  | nil => cases hmem
  | cons p rest ih =>
    rw [names, List.map_cons, List.nodup_cons] at h
    rcases List.mem_cons.1 hmem with rfl | hrest
    · simp [get?, findEntry]
    · have hp : p.1 ≠ name := fun e => h.1 (e ▸ List.mem_map_of_mem hrest)
      simpa [get?, findEntry, hp] using ih h.2 hrest

/-- A new name goes to the end. -/
theorem entries_set_of_notMem {t : Table α} {name : String} (h : name ∉ t.names) (entry : α) :
    (t.set name entry).entries = t.entries ++ [(name, entry)] := by
  obtain ⟨entries⟩ := t
  induction entries with
  | nil => rfl
  | cons p rest ih =>
    simp only [names, List.map_cons, List.mem_cons, not_or] at h
    have hp : ¬ p.1 = name := fun e => h.1 e.symm
    have hrest := ih h.2
    simp only [set] at hrest ⊢
    simp [setEntry, hp, hrest]

/-! ### Tables without repeated names -/

theorem nodup_names_set {t : Table α} (h : t.names.Nodup) (name : String) (entry : α) :
    (t.set name entry).names.Nodup := by
  rw [names_set]
  split
  · exact h
  · next hn =>
    refine List.nodup_append.2 ⟨h, List.pairwise_singleton _ _, ?_⟩
    intro a ha b hb e
    rw [List.mem_singleton.1 hb] at e
    exact hn (e ▸ ha)

theorem nodup_names_setAll {t : Table α} (h : t.names.Nodup) (pairs : List (String × α)) :
    (t.setAll pairs).names.Nodup := by
  induction pairs generalizing t with
  | nil => exact h
  | cons p rest ih => exact ih (nodup_names_set h p.1 p.2)

theorem nodup_names_ofPairs (pairs : List (String × α)) : (ofPairs pairs).names.Nodup :=
  nodup_names_setAll (t := empty) List.nodup_nil pairs

/-- Setting pairs of different names gives each of these names the entry that it has in them. -/
theorem get?_setAll (t : Table α) {pairs : List (String × α)} (h : (pairs.map Prod.fst).Nodup)
    (name : String) :
    (t.setAll pairs).get? name = (findEntry name pairs).or (t.get? name) := by
  induction pairs generalizing t with
  | nil => rfl
  | cons p rest ih =>
    rw [List.map_cons, List.nodup_cons] at h
    change ((t.set p.1 p.2).setAll rest).get? name = _
    rw [ih (t.set p.1 p.2) h.2, get?_set]
    -- the first pair counts only if its name does not come again, and it does not
    by_cases hp : p.1 = name
    · have hrest : findEntry name rest = none :=
        (get?_eq_none_iff ⟨rest⟩ name).2 (hp ▸ h.1)
      simp [findEntry, hp, hrest]
    · have hn : name ≠ p.1 := fun e => hp e.symm
      simp [findEntry, hp, hn]

/-- Merging a table into another: its entries win. -/
theorem get?_setAll_entries (t : Table α) {u : Table α} (h : u.names.Nodup) (name : String) :
    (t.setAll u.entries).get? name = (u.get? name).or (t.get? name) :=
  get?_setAll t h name

/-- What a table binds after several pairs were set was set or was bound before. -/
theorem of_get?_setAll {t : Table α} {pairs : List (String × α)} {name : String} {entry : α}
    (h : (t.setAll pairs).get? name = some entry) :
    (name, entry) ∈ pairs ∨ t.get? name = some entry := by
  induction pairs generalizing t with
  | nil => exact .inr h
  | cons p pairs ih =>
    -- the entry comes from a later pair, from this one, or from before
    rcases ih h with hmem | hset
    · exact .inl (List.mem_cons_of_mem p hmem)
    · rw [get?_set] at hset
      by_cases hp : name = p.1
      · rw [if_pos hp] at hset
        cases hset
        rw [hp]
        exact .inl List.mem_cons_self
      · rw [if_neg hp] at hset
        exact .inr hset

/-- Setting what a function gives for some names. -/
theorem get?_setAll_map (t : Table α) (f : String → α) (names : List String) (name : String) :
    (t.setAll (names.map fun n => (n, f n))).get? name
      = if name ∈ names then some (f name) else t.get? name := by
  induction names generalizing t with
  | nil => rfl
  | cons n names ih =>
    change ((t.set n (f n)).setAll (names.map fun n => (n, f n))).get? name = _
    rw [ih, get?_set]
    -- the same entry is set again, so the order does not matter
    by_cases hmem : name ∈ names
    · rw [if_pos hmem, if_pos (List.mem_cons_of_mem n hmem)]
    · by_cases hname : name = n
      · simp [hname]
      · simp [hmem, hname]

/-- The table of a function on a list of names. -/
theorem get?_ofPairs_map (f : String → α) (names : List String) (name : String) :
    (ofPairs (names.map fun n => (n, f n))).get? name
      = if name ∈ names then some (f name) else none :=
  get?_setAll_map empty f names name

/-! ### The same names with other entries -/

@[simp] theorem map_empty (f : α → β) : (empty : Table α).map f = empty := rfl

theorem findEntry_map_snd (f : α → β) (name : String) (ps : List (String × α)) :
    findEntry name (ps.map fun p => (p.1, f p.2)) = (findEntry name ps).map f := by
  induction ps with
  | nil => rfl
  | cons p rest ih =>
    by_cases hp : p.1 = name
    · simp [findEntry, hp]
    · simpa [findEntry, hp] using ih

@[simp] theorem get?_map (f : α → β) (t : Table α) (name : String) :
    (t.map f).get? name = (t.get? name).map f :=
  findEntry_map_snd f name t.entries

@[simp] theorem names_map (f : α → β) (t : Table α) : (t.map f).names = t.names := by
  rw [names, map, List.map_map]
  rfl

@[simp] theorem contains_map (f : α → β) (t : Table α) (name : String) :
    (t.map f).contains name = t.contains name := by
  rw [contains, map, List.any_map]
  rfl

theorem setEntry_map (f : α → β) (name : String) (entry : α) (ps : List (String × α)) :
    setEntry name (f entry) (ps.map fun p => (p.1, f p.2))
      = (setEntry name entry ps).map fun p => (p.1, f p.2) := by
  induction ps with
  | nil => rfl
  | cons p rest ih =>
    by_cases hp : p.1 = name
    · simp [setEntry, hp]
    · simpa [setEntry, hp] using ih

theorem map_set (f : α → β) (t : Table α) (name : String) (entry : α) :
    (t.map f).set name (f entry) = (t.set name entry).map f :=
  congrArg Table.mk (setEntry_map f name entry t.entries)

theorem map_setAll (f : α → β) (t : Table α) (pairs : List (String × α)) :
    (t.map f).setAll (pairs.map fun p => (p.1, f p.2)) = (t.setAll pairs).map f := by
  induction pairs generalizing t with
  | nil => rfl
  | cons p rest ih =>
    show ((t.map f).set p.1 (f p.2)).setAll _ = ((t.set p.1 p.2).setAll rest).map f
    rw [map_set, ih]

theorem map_ofPairs (f : α → β) (pairs : List (String × α)) :
    ofPairs (pairs.map fun p => (p.1, f p.2)) = (ofPairs pairs).map f :=
  map_setAll f empty pairs

end Table

end SmallLisp
