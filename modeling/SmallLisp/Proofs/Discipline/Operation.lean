import SmallLisp.Operation
import SmallLisp.Proofs.Discipline.Basic
import SmallLisp.Proofs.Traversal

/-!
# Primitive operations keep to every discipline

An operation answers with its arguments, with parts of them, and with new numbers, booleans and
lists; it has no access to anything else (`Discipline.answers_perform`). It fails if its arguments
are too few, too many or of the wrong kind, and `error` fails with their text
(`Operation.faults_perform`).
-/

namespace SmallLisp

namespace Operation

/-! ### What the checks of an operation let through -/

variable {α : Type} {arguments : List Value}

theorem exactlyOne_eq_ok {use : Value → Except EvalFault α} {r : α} :
    exactlyOne arguments use = .ok r ↔ ∃ a, arguments = [a] ∧ use a = .ok r := by
  match arguments with
  | [] => simp [exactlyOne]
  | [a] => simp [exactlyOne]
  | _ :: _ :: _ => simp [exactlyOne]

theorem exactlyTwo_eq_ok {use : Value → Value → Except EvalFault α} {r : α} :
    exactlyTwo arguments use = .ok r ↔ ∃ a b, arguments = [a, b] ∧ use a b = .ok r := by
  match arguments with
  | [] => simp [exactlyTwo]
  | [_] => simp [exactlyTwo]
  | [a, b] => simp [exactlyTwo]
  | _ :: _ :: _ :: _ => simp [exactlyTwo]

theorem atLeastOne_eq_ok {use : Except EvalFault α} {r : α} :
    atLeastOne arguments use = .ok r ↔ arguments ≠ [] ∧ use = .ok r := by
  cases arguments with
  | nil => simp [atLeastOne]
  | cons a rest => simp [atLeastOne]

theorem elementsOf_eq_ok {op : Operation} {v : Value} {elements : List Value} :
    op.elementsOf v = .ok elements ↔ ∃ self, v = .list elements self := by
  cases v <;> simp [elementsOf]

theorem headOf_eq_ok {op : Operation} {v : Value} {p : Value × List Value} :
    op.headOf v = .ok p ↔ ∃ self, v = .list (p.1 :: p.2) self := by
  obtain ⟨head, tail⟩ := p
  cases v with
  | list elements self => cases elements <;> simp [headOf, elementsOf]
  | _ => simp [headOf, elementsOf]

end Operation

/-! ### Faults -/

/-- Whether the fault is that arguments are too few, too many, of the wrong kind, or zero where they
must not be. -/
def EvalFault.isOfArguments : EvalFault → Bool
  | arityMismatch _ _ => true
  | typeError _ _ _ => true
  | divisionByZero => true
  | _ => false

/-- The computation fails with faults of arguments only. -/
abbrev ChecksArguments {α : Type} (x : Except EvalFault α) : Prop :=
  Faults (fun fault => fault.isOfArguments = true) x

namespace Operation

theorem checksArguments_exactlyOne {use : Value → Except EvalFault α}
    (h : ∀ a, ChecksArguments (use a)) (arguments : List Value) :
    ChecksArguments (exactlyOne arguments use) := by
  match arguments with
  | [] => exact .error rfl
  | [a] => exact h a
  | _ :: _ :: _ => exact .error rfl

theorem checksArguments_exactlyTwo {use : Value → Value → Except EvalFault α}
    (h : ∀ a b, ChecksArguments (use a b)) (arguments : List Value) :
    ChecksArguments (exactlyTwo arguments use) := by
  match arguments with
  | [] => exact .error rfl
  | [_] => exact .error rfl
  | [a, b] => exact h a b
  | _ :: _ :: _ :: _ => exact .error rfl

theorem checksArguments_atLeastOne {use : Except EvalFault α} (h : ChecksArguments use)
    (arguments : List Value) : ChecksArguments (atLeastOne arguments use) := by
  cases arguments with
  | nil => exact .error rfl
  | cons a rest => exact h

theorem checksArguments_numbersOf (op : Operation) (arguments : List Value) :
    ChecksArguments (op.numbersOf arguments) := by
  induction arguments with
  | nil => exact .ok []
  | cons a rest ih =>
    cases a with
    | number x self => exact ih.map (x :: ·)
    | _ => exact .error rfl

theorem checksArguments_elementsOf (op : Operation) (v : Value) :
    ChecksArguments (op.elementsOf v) := by
  cases v with
  | list elements self => exact .ok elements
  | _ => exact .error rfl

theorem checksArguments_headOf (op : Operation) (v : Value) : ChecksArguments (op.headOf v) := by
  cases v with
  | list elements self =>
    cases elements with
    | nil => exact .error rfl
    | cons head tail => exact .ok (head, tail)
  | _ => exact .error rfl

theorem checksArguments_quotient (xs : List Float) : ChecksArguments (quotient xs) := by
  unfold quotient
  split
  · exact .ok 1
  · split
    · exact .error rfl
    · exact .ok _
  · split
    · exact .error rfl
    · exact .ok _

/-- **An operation refuses arguments**, and it does nothing else but `error`, whose fault is the
text of its arguments. -/
theorem faults_perform (op : Operation) (arguments : List Value) :
    Faults (fun fault => fault.isOfArguments = true ∨ op = error ∧ arguments ≠ [] ∧
        fault = .userError (" ".intercalate (arguments.map Value.display)))
      (op.perform arguments) := by
  -- only `error` fails for another reason than its arguments
  by_cases hop : op = error
  · subst hop
    cases arguments with
    | nil => exact .error (.inl rfl)
    | cons a rest => exact .error (.inr ⟨rfl, List.cons_ne_nil a rest, rfl⟩)
  · have hnumbers := checksArguments_numbersOf op arguments
    suffices hchecks : ChecksArguments (op.perform arguments) from
      fun fault hfault => .inl (hchecks fault hfault)
    cases op with
    | error => exact absurd rfl hop
    | car | cdr => exact checksArguments_exactlyOne (fun v => (checksArguments_headOf _ v).map _) _
    | cons =>
      refine checksArguments_exactlyTwo (fun head tail => ?_) _
      cases tail with
      | _ => exact .ok _
    | list => exact .ok _
    | isNull | isPair | isNumber | isSymbol | isString | isProcedure =>
      exact checksArguments_exactlyOne (fun _ => .ok _) _
    | add | multiply => exact hnumbers.map _
    | subtract | numberEqual | less | greater | lessEqual | greaterEqual =>
      exact checksArguments_atLeastOne (hnumbers.map _) _
    | divide =>
      refine checksArguments_atLeastOne ?_ _
      split
      · exact (checksArguments_quotient _).map _
      · next fault hfault => exact .error (hnumbers fault hfault)
    | isIdentical | isAlike => exact checksArguments_exactlyTwo (fun _ _ => .ok _) _
    | display => exact checksArguments_exactlyOne (fun _ => .ok _) _
    | newline =>
      cases arguments with
      | nil => exact .ok _
      | cons a rest => exact .error rfl
    | apply =>
      exact checksArguments_exactlyTwo (fun _ v => (checksArguments_elementsOf _ v).map _) _

end Operation

namespace Discipline

open Operation

variable {D : Discipline} {arguments : List Value} {reply : Reply}

/-- The replies that keep to a discipline. -/
def Answers (D : Discipline) : Reply → Prop
  | .value v => D.Data v
  | .output _ => True
  | .application procedure arguments => D.Data procedure ∧ ∀ a ∈ arguments, D.Data a

theorem answers_test {holds : Value → Bool} (h : test holds arguments = .ok reply) :
    D.Answers reply := by
  obtain ⟨a, -, heq⟩ := exactlyOne_eq_ok.1 h
  cases heq
  exact .boolean

theorem answers_compare {op : Operation} {related : Float → Float → Bool}
    (h : op.compare related arguments = .ok reply) : D.Answers reply := by
  obtain ⟨-, h⟩ := atLeastOne_eq_ok.1 h
  obtain ⟨xs, -, rfl⟩ := map_eq_ok_iff.1 h
  exact .boolean

theorem answers_joinNumbers {op : Operation} {neutral : Float} {join : Float → Float → Float}
    (h : op.joinNumbers neutral join arguments = .ok reply) : D.Answers reply := by
  obtain ⟨xs, -, rfl⟩ := map_eq_ok_iff.1 h
  exact .number

theorem answers_divide (h : divide.perform arguments = .ok reply) : D.Answers reply := by
  rw [perform] at h
  obtain ⟨-, h⟩ := atLeastOne_eq_ok.1 h
  split at h
  · obtain ⟨x, -, rfl⟩ := map_eq_ok_iff.1 h
    exact .number
  · cases h

theorem answers_cons (harguments : ∀ a ∈ arguments, D.Data a)
    (h : cons.perform arguments = .ok reply) : D.Answers reply := by
  rw [perform] at h
  obtain ⟨head, tail, rfl, hanswer⟩ := exactlyTwo_eq_ok.1 h
  have hhead : D.Data head := harguments head (by simp)
  have htail : D.Data tail := harguments tail (by simp)
  split at hanswer
  · -- onto a list
    next elements self =>
    cases hanswer
    refine Within.ofList fun v hv => ?_
    rcases List.mem_cons.1 hv with rfl | hmem
    · exact hhead
    · exact htail.of_list v hmem
  · cases hanswer
    refine Within.ofList fun v hv => ?_
    rcases List.mem_cons.1 hv with rfl | hmem
    · exact hhead
    · exact List.mem_singleton.1 hmem ▸ htail

/-- **An operation answers within the discipline of its arguments.** -/
theorem answers_perform {op : Operation} (harguments : ∀ a ∈ arguments, D.Data a)
    (h : op.perform arguments = .ok reply) : D.Answers reply := by
  cases op with
  | car =>
    obtain ⟨a, rfl, h⟩ := exactlyOne_eq_ok.1 h
    obtain ⟨⟨head, tail⟩, hparts, rfl⟩ := map_eq_ok_iff.1 h
    obtain ⟨self, rfl⟩ := headOf_eq_ok.1 hparts
    exact (harguments _ (List.mem_singleton_self _)).of_list head List.mem_cons_self
  | cdr =>
    obtain ⟨a, rfl, h⟩ := exactlyOne_eq_ok.1 h
    obtain ⟨⟨head, tail⟩, hparts, rfl⟩ := map_eq_ok_iff.1 h
    obtain ⟨self, rfl⟩ := headOf_eq_ok.1 hparts
    -- the rest of the list is a list of elements of the argument
    refine Within.ofList fun v hv => ?_
    exact (harguments _ (List.mem_singleton_self _)).of_list v (List.mem_cons_of_mem head hv)
  | cons => exact answers_cons harguments h
  | list =>
    cases h
    exact .ofList harguments
  | isNull | isPair | isNumber | isSymbol | isString | isProcedure => exact answers_test h
  | add | multiply => exact answers_joinNumbers h
  | subtract =>
    obtain ⟨-, h⟩ := atLeastOne_eq_ok.1 h
    obtain ⟨xs, -, rfl⟩ := map_eq_ok_iff.1 h
    exact .number
  | divide => exact answers_divide h
  | numberEqual | less | greater | lessEqual | greaterEqual => exact answers_compare h
  | isIdentical | isAlike =>
    obtain ⟨a, b, -, heq⟩ := exactlyTwo_eq_ok.1 h
    cases heq
    exact .boolean
  | display =>
    obtain ⟨a, -, heq⟩ := exactlyOne_eq_ok.1 h
    cases heq
    trivial
  | newline =>
    cases arguments with
    | nil =>
      cases h
      trivial
    | cons a rest => cases h
  | error =>
    obtain ⟨-, heq⟩ := atLeastOne_eq_ok.1 h
    cases heq
  -- the procedure and the elements of the list are arguments or parts of one
  | apply =>
    obtain ⟨procedure, v, rfl, h⟩ := exactlyTwo_eq_ok.1 h
    obtain ⟨vs, hvs, rfl⟩ := map_eq_ok_iff.1 h
    obtain ⟨self, rfl⟩ := elementsOf_eq_ok.1 hvs
    exact ⟨harguments procedure (by simp), (harguments (.list vs self) (by simp)).of_list⟩

end Discipline

end SmallLisp
