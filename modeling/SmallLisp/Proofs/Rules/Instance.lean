import SmallLisp.Proofs.Rules.RoundTrip

/-!
# Instances of a pattern

A pattern says which lists it accepts position by position, and that can be read off the list that
it is written as (`Pattern.IsInstance`): a variable stands for any form, a literal for the symbol of
its name, a list for a list that is an instance of it, and an element before a final `...` for any
number of forms, each of which is an instance of that element. Neither compiled patterns nor
bindings occur in it.

The matcher goes through the compiled pattern and adds to bindings on the way. It accepts exactly
the instances (`CompiledPattern.matches_iff`). Both directions are inductions over how the pattern
is written: a match takes the form apart as the pattern is built, and an instance fits the pattern
in one way only, because no element that is accepted is an ellipsis itself.
-/

namespace SmallLisp

namespace Pattern

/-- The forms are an instance of the pattern that is written as the given elements. The symbols in
`literals` stand for themselves, where `same` holds of their names. -/
inductive IsInstance (literals : List String) (same : String → Prop) :
    List Value → List Value → Prop where
  | nil : IsInstance literals same [] []
  | variable {name : String} {elements forms : List Value} (form : Value) :
      name ∉ literals → name ≠ ellipsis → IsInstance literals same elements forms →
      IsInstance literals same (.symbol name :: elements) (form :: forms)
  | literal {name : String} {elements forms : List Value} :
      name ∈ literals → name ≠ ellipsis → same name → IsInstance literals same elements forms →
      IsInstance literals same (.symbol name :: elements) (.symbol name :: forms)
  | sublist {inner elements innerForms forms : List Value} (self self' : Option Identity) :
      IsInstance literals same inner innerForms → IsInstance literals same elements forms →
      IsInstance literals same (.list inner self :: elements) (.list innerForms self' :: forms)
  | repetition {element : Value} {forms : List Value} :
      (∀ form ∈ forms, IsInstance literals same [element] [form]) →
      IsInstance literals same [element, .symbol ellipsis] forms

variable {literals : List String} {same : String → Prop} {sameBinding : String → Bool}
  {elements forms : List Value} {p : Pattern}

/-- An ellipsis stands for nothing by itself. -/
theorem not_isInstance_ellipsis : ¬ IsInstance literals same [.symbol ellipsis] forms := by
  intro h
  cases h with
  | «variable» _ _ hname _ => exact hname rfl
  | literal _ hname _ _ => exact hname rfl

/-- **What matches is an instance.** -/
theorem isInstance_of_matchForms (hsame : ∀ name, sameBinding name = true → same name)
    (hw : Written literals elements p) {bound b : Bindings}
    (h : p.matchForms sameBinding forms bound = some b) :
    IsInstance literals same elements forms := by
  induction hw generalizing forms bound b with
  | empty =>
    obtain ⟨rfl, -⟩ := matchForms_empty.1 h
    exact .nil
  | «variable» hfree hname _ ih =>
    obtain ⟨form, others, rfl, hrest⟩ := matchForms_variable.1 h
    exact .variable form hfree hname (ih hrest)
  | literal hliteral hname _ ih =>
    obtain ⟨others, rfl, hagrees, hrest⟩ := matchForms_literal.1 h
    exact .literal hliteral hname (hsame _ hagrees) (ih hrest)
  | @sublist _ _ self _ _ _ _ ihHead ihRest =>
    obtain ⟨inner, self', others, found, rfl, hhead, hrest⟩ := matchForms_sublist.1 h
    exact .sublist self self' (ihHead hhead) (ihRest hrest)
  | repetition _ ih =>
    -- every form has a row of bindings of its own
    obtain ⟨repetitions, hmatches, -⟩ := matchForms_repetition.1 h
    exact .repetition <|
      forall_mem_of_forall₂ hmatches.flip (fun _ _ => trivial) fun _ _ _ hrow => ih hrow

/-- **An instance matches**, whatever was bound before. -/
theorem IsInstance.exists_match (hsame : ∀ name, same name → sameBinding name = true)
    (hw : Written literals elements p) (h : IsInstance literals same elements forms)
    (bound : Bindings) : ∃ b, p.matchForms sameBinding forms bound = some b := by
  induction hw generalizing forms bound with
  | empty =>
    cases h
    exact ⟨bound, rfl⟩
  | «variable» hfree _ hrest ih =>
    cases h with
    | «variable» form _ _ hothers =>
      obtain ⟨b, hb⟩ := ih hothers (bound.set _ (.form form))
      exact ⟨b, matchForms_variable.2 ⟨form, _, rfl, hb⟩⟩
    | literal hliteral _ _ _ => exact absurd hliteral hfree
    -- what was compiled as a variable is not followed by an ellipsis
    | repetition _ => cases hrest.head_isEllipsis
  | literal hliteral _ hrest ih =>
    cases h with
    | «variable» _ hfree _ _ => exact absurd hliteral hfree
    | literal _ _ hagrees hothers =>
      obtain ⟨b, hb⟩ := ih hothers bound
      exact ⟨b, matchForms_literal.2 ⟨_, rfl, hsame _ hagrees, hb⟩⟩
    | repetition _ => cases hrest.head_isEllipsis
  | sublist _ hrest ihHead ihRest =>
    cases h with
    | sublist _ self' hinner hothers =>
      obtain ⟨found, hfound⟩ := ihHead hinner ∅
      obtain ⟨b, hb⟩ := ihRest hothers (bound.setAll found.entries)
      exact ⟨b, matchForms_sublist.2 ⟨_, self', _, found, rfl, hfound, hb⟩⟩
    | repetition _ => cases hrest.head_isEllipsis
  | repetition _ ih =>
    cases h with
    | «variable» _ _ _ hdots => exact absurd hdots not_isInstance_ellipsis
    | literal _ _ _ hdots => exact absurd hdots not_isInstance_ellipsis
    | sublist _ _ _ hdots => exact absurd hdots not_isInstance_ellipsis
    -- each form of the repetition is an instance by itself
    | repetition hforms =>
      obtain ⟨repetitions, hmatches⟩ := exists_forall₂ fun form hform => ih (hforms form hform) ∅
      exact ⟨_, matchForms_repetition.2 ⟨repetitions, hmatches, rfl⟩⟩

end Pattern

namespace CompiledPattern

open Pattern

/-- **The matcher accepts exactly the instances of the pattern.** A pattern that compiles is a list.
A form matches it if the form is a list, too, and its elements are an instance of those of the
pattern, where a literal stands for itself if the same frame binds its name in the environments of
the definition and of the use, or none in both. No other form matches, and matching is never a
fault. -/
theorem matches_iff {pattern : Value} {literals : List String} {c : CompiledPattern}
    (hc : compile pattern literals = .ok c) (store : Store) (definition use : Env) (form : Value) :
    (c.matchForm? (store.agree definition use) form).isSome = true ↔
      ∃ elements self forms self', pattern = .list elements self ∧ form = .list forms self' ∧
        IsInstance literals (fun name => store.resolve definition name = store.resolve use name)
          elements forms := by
  obtain ⟨elements, self, rfl, hw, -, -⟩ := compile_spec hc
  rw [Option.isSome_iff_exists]
  constructor
  · rintro ⟨b, hb⟩
    obtain ⟨forms, self', rfl, hmatch⟩ := matchForm?_eq_some.1 hb
    refine ⟨elements, self, forms, self', rfl, rfl, isInstance_of_matchForms ?_ hw hmatch⟩
    -- that a literal means the same is a test of the code and a statement here
    exact fun name hagree => beq_iff_eq.1 hagree
  · rintro ⟨_, _, forms, self', heq, rfl, hinstance⟩
    cases heq
    obtain ⟨b, hb⟩ := hinstance.exists_match (fun name hresolve => beq_iff_eq.2 hresolve) hw ∅
    exact ⟨b, matchForm?_eq_some.2 ⟨forms, self', rfl, hb⟩⟩

/-- The operands of `arrows` are an instance of it where `=>` is bound in no environment. In an
environment that binds `=>` they are none, because the literal does not mean there what it means at
the definition. -/
theorem matches_iff_arrows :
    (∃ elements self forms self', Value.ofList arrows = .list elements self
        ∧ Value.ofList arrowOperands = .list forms self'
        ∧ IsInstance ["=>"] (fun name => Store.empty.resolve [] name = Store.empty.resolve [] name)
            elements forms)
      ∧ ¬ ∃ elements self forms self', Value.ofList arrows = .list elements self
        ∧ Value.ofList arrowOperands = .list forms self'
        ∧ IsInstance ["=>"]
            (fun name => (Store.empty.push [] (.bind ["=>"] [none])).2.resolve [] name
              = (Store.empty.push [] (.bind ["=>"] [none])).2.resolve [0] name)
            elements forms := by
  have hc : compile (.ofList arrows) ["=>"] = .ok compiledArrows := rfl
  constructor
  · exact (matches_iff hc .empty [] [] (.ofList arrowOperands)).1 rfl
  · rw [← matches_iff hc (Store.empty.push [] (.bind ["=>"] [none])).2 [] [0]]
    decide

end CompiledPattern

end SmallLisp
