import SmallLisp.Eval.Machine
import SmallLisp.Proofs.Rules.Copy

/-!
# Checks of shape

Forms, patterns and templates are checked by functions that never evaluate anything. They fail with
faults of shape only (`ChecksShape`): with none that is reported elsewhere, as that of an empty
sequence of expressions is.
-/

namespace SmallLisp

/-- Whether the fault is that of a form, a pattern or a template of the wrong shape. -/
def SyntaxFault.isShape : SyntaxFault → Bool
  | emptySequence => false
  | other _ => false
  | _ => true

/-- The check fails with faults of shape only. -/
abbrev ChecksShape {α : Type} (x : Except SyntaxFault α) : Prop :=
  Faults (fun fault => fault.isShape = true) x

theorem checksShape_parameterNames (seen : List String) (parameters : List Value) :
    ChecksShape (Machine.parameterNames seen parameters) := by
  induction parameters generalizing seen with
  | nil => exact .ok []
  | cons parameter rest ih =>
    cases parameter with
    | symbol name =>
      rw [Machine.parameterNames]
      split
      · exact .error rfl
      · exact (ih (name :: seen)).map _
    | _ => exact .error rfl

theorem checksShape_nestClauses (clauses : List Value) :
    ChecksShape (Derived.nestClauses clauses) := by
  induction clauses with
  | nil => exact .ok _
  | cons clause rest ih =>
    unfold Derived.nestClauses
    split
    · next heq => cases heq
    · next heq =>
      cases heq
      split
      · -- a clause that is a list: an `else` must be the last, any other is followed by the rest
        split
        · exact .ok _
        · exact .error rfl
      · exact ih.map _
    · exact .error rfl

theorem checksShape_splitBindings (bindings : List Value) :
    ChecksShape (Derived.splitBindings bindings) := by
  induction bindings with
  | nil => exact .ok _
  | cons binding rest ih =>
    unfold Derived.splitBindings
    split
    · next heq => cases heq
    · next heq =>
      cases heq
      exact ih.map _
    · exact .error rfl

theorem checksShape_desugar (d : Derived) (form : List Value) : ChecksShape (d.desugar form) := by
  cases d with
  | conditional => exact checksShape_nestClauses form.tail
  | binding =>
    rw [Derived.desugar]
    unfold Derived.combination
    split
    · split
      · exact .error rfl
      · exact (checksShape_splitBindings _).map _
    · exact .error rfl

mutual

theorem checksShape_compileSequence (literals : List String) (elements : List Value) (depth : Nat)
    (depths : Table Nat) :
    ChecksShape (Pattern.compileSequence literals elements depth depths) := by
  match elements with
  | [] =>
    rw [Pattern.compileSequence]
    exact .ok _
  -- an ellipsis in front, an element with an ellipsis behind it, an element alone
  | element :: rest =>
    rw [Pattern.compileSequence]
    split
    · exact .error rfl
    · split
      · split
        · exact .error rfl
        · split
          · exact .ok _
          · next fault heq =>
            exact .error (checksShape_compileElement literals element .empty _ depths fault heq)
      · split
        · exact checksShape_compileElement literals element _ depth _
        · next fault heq =>
          exact .error (checksShape_compileSequence literals rest depth depths fault heq)

theorem checksShape_compileElement (literals : List String) (element : Value) (rest : Pattern)
    (depth : Nat) (depths : Table Nat) :
    ChecksShape (Pattern.compileElement literals element rest depth depths) := by
  match element with
  | .symbol name =>
    rw [Pattern.compileElement]
    split
    · exact .ok _
    · -- a variable that occurs twice is the only thing wrong with a symbol
      split
      · exact .error rfl
      · exact .ok _
  | .list elements _ =>
    rw [Pattern.compileElement]
    split
    · exact .ok _
    · next fault heq =>
      exact .error (checksShape_compileSequence literals elements depth depths fault heq)
  | .number _ _ | .string _ | .boolean _ | .primitive _ _ | .compound _ _ _ _ _
  | .transformer _ _ _ _ _ =>
    rw [Pattern.compileElement]
    · exact .error rfl
    all_goals nofun

end

theorem checksShape_compileClause (literals : List String) (pattern : Value) :
    ChecksShape (Transformer.compileClause literals pattern) := by
  unfold Transformer.compileClause
  split
  · exact (checksShape_compileSequence literals _ 0 ∅).map _
  · exact .error rfl

theorem checksShape_literalNames (forms : List Value) :
    ChecksShape (Transformer.literalNames forms) := by
  induction forms with
  | nil => exact .ok []
  | cons form rest ih =>
    cases form with
    | symbol name => exact ih.map _
    | _ => exact .error rfl

theorem checksShape_clausesOf (literals : List String) (forms : List Value) :
    ChecksShape (Transformer.clausesOf literals forms) := by
  induction forms with
  | nil => exact .ok []
  | cons form rest ih =>
    unfold Transformer.clausesOf
    split
    · next heq => cases heq
    · next heq =>
      cases heq
      split
      · exact ih.map _
      · -- the pattern is reported as it is compiled
        next fault hfault => exact .error (checksShape_compileClause literals _ fault hfault)
    · exact .error rfl

theorem checksShape_make (name : String) (rules : Value) (env : Env) :
    ChecksShape (Transformer.make name rules env) := by
  unfold Transformer.make
  split
  · split
    · split
      · next fault hfault => exact .error (checksShape_literalNames _ fault hfault)
      · exact (checksShape_clausesOf _ _).map _
    · exact .error rfl
  · exact .error rfl

theorem checksShape_repetitions (names : List String) (b : Bindings) :
    ChecksShape (Template.repetitions names b) := by
  unfold Template.repetitions
  split
  · exact .error rfl
  · dsimp only
    split
    · exact .ok _
    · exact .error rfl

theorem checksShape_copies {build : Bindings → Except SyntaxFault Value}
    (hbuild : ∀ b, ChecksShape (build b)) (names : List String) (more : Nat) (b : Bindings) :
    ChecksShape (Template.copies build names more b) := by
  induction more generalizing b with
  | zero =>
    rw [Template.copies]
    exact (checksShape_repetitions names b).bind fun rows _ => .mapM fun row _ => hbuild row
  | succ more ih =>
    rw [Template.copies]
    exact ((checksShape_repetitions names b).bind fun rows _ => .mapM fun row _ => ih row).map _

theorem checksShape_elementCopies {element : Value}
    (helement : ∀ b, ChecksShape (Template.instantiate element b)) (count : Nat) (b : Bindings) :
    ChecksShape (Template.elementCopies element count b) := by
  cases count with
  | zero => exact (helement b).map _
  | succ more => exact checksShape_copies helement _ more b

mutual

theorem checksShape_instantiate (template : Value) (b : Bindings) :
    ChecksShape (Template.instantiate template b) := by
  match template with
  -- not bound, bound to a form, or bound to a sequence, which is refused
  | .symbol name =>
    rw [Template.instantiate]
    split
    · exact .ok _
    · exact .ok _
    · exact .error rfl
  | .list elements _ =>
    rw [Template.instantiate]
    exact (checksShape_instantiateAll false elements b).map _
  | .number _ _ | .string _ | .boolean _ | .primitive _ _ | .compound _ _ _ _ _
  | .transformer _ _ _ _ _ =>
    rw [Template.instantiate]
    · exact .ok _
    all_goals nofun

theorem checksShape_instantiateAll (after : Bool) (elements : List Value) (b : Bindings) :
    ChecksShape (Template.instantiateAll after elements b) := by
  match elements with
  | [] =>
    rw [Template.instantiateAll]
    exact .ok []
  | element :: rest =>
    rw [Template.instantiateAll_cons]
    split
    · exact checksShape_instantiateAll true rest b
    · -- how often an element is copied does not matter, for each copy reports in the same way
      have helement := checksShape_elementCopies (checksShape_instantiate element)
        (Template.leadingEllipses rest) b
      exact helement.bind fun here _ => (checksShape_instantiateAll true rest b).map _

end

theorem checksShape_firstInstance? (sameBinding : String → Bool) (literals : List String)
    (operands : Value) (clauses : List (Value × Value)) :
    ChecksShape (Transformer.firstInstance? sameBinding literals operands clauses) := by
  induction clauses with
  | nil => exact .ok none
  | cons clause rest ih =>
    rw [Transformer.firstInstance?]
    split
    · next fault hfault => exact .error (checksShape_compileClause literals _ fault hfault)
    · split
      · exact (checksShape_instantiate _ _).map _
      · exact ih

theorem checksShape_expand (store : Store) (name : String) (literals : List String)
    (clauses : List (Value × Value)) (definition : Env) (form : List Value) (use : Env) :
    ChecksShape (Transformer.expand store name literals clauses definition form use) := by
  rw [Transformer.expand]
  split
  · next fault hfault => exact .error (checksShape_firstInstance? _ literals _ clauses fault hfault)
  · exact .ok _
  · exact .error rfl

end SmallLisp
