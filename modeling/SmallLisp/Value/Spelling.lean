import SmallLisp.Value.Basic
import SmallLisp.Number.Text
import SmallLisp.Text.Quoted

/-!
# The text of values

In the written style strings are quoted and escaped; in the displayed style they stand for
themselves. All other values look the same in both styles. Procedures and transformers show what
they are called and not what they do.
-/

namespace SmallLisp

/-- Whether strings are quoted. -/
inductive Style where
  | written
  | displayed
  deriving DecidableEq, Repr

namespace Value

open Text

/-- Words with one space between them. -/
def spaced (words : List (List Char)) : List Char :=
  [' '].intercalate words

/-- A list of names in parentheses. -/
def spellNames (names : List String) : List Char :=
  '(' :: (spaced (names.map String.toList) ++ [')'])

/-- The text of a compound procedure. One that has no name, or an empty one, shows only its
parameters. -/
def spellCompound (name : Option String) (parameters : List String) : List Char :=
  match name with
  | none | some "" => "#<compound ".toList ++ spellNames parameters ++ ['>']
  | some name => "#<procedure ".toList ++ name.toList ++ ' ' :: spellNames parameters ++ ['>']

mutual

/-- The characters of a value's text. -/
def spell (style : Style) : Value → List Char
  | number x _ => Number.spell x
  | string s =>
    match style with
    | .written => Quoted.quote s.toList
    | .displayed => s.toList
  | boolean b => if b then ['#', 't'] else ['#', 'f']
  | symbol name => name.toList
  | list elements _ => '(' :: (spaced (spellEach style elements) ++ [')'])
  | primitive action _ => "#<procedure ".toList ++ action.name.toList ++ ['>']
  | compound name parameters _ _ _ => spellCompound name parameters
  | transformer name _ _ _ _ => "#<macro ".toList ++ name.toList ++ ['>']

/-- The texts of the values of a list. -/
def spellEach (style : Style) : List Value → List (List Char)
  | [] => []
  | v :: vs => spell style v :: spellEach style vs

end

theorem spellEach_eq_map (style : Style) (vs : List Value) :
    spellEach style vs = vs.map (spell style) := by
  induction vs with
  | nil => rfl
  | cons v vs ih => simp [spellEach, ih]

@[simp] theorem spell_number (style : Style) (x : Float) (self : Option Identity) :
    (number x self).spell style = Number.spell x := rfl

@[simp] theorem spell_symbol (style : Style) (name : String) :
    (symbol name).spell style = name.toList := rfl

@[simp] theorem spell_list (style : Style) (elements : List Value) (self : Option Identity) :
    (list elements self).spell style = '(' :: (spaced (elements.map (spell style)) ++ [')']) := by
  rw [← spellEach_eq_map]
  rfl

/-- The text of a value in the written style. -/
def write (v : Value) : String :=
  String.ofList (v.spell .written)

/-- The text of a value in the displayed style. -/
def display (v : Value) : String :=
  String.ofList (v.spell .displayed)

end Value

end SmallLisp
