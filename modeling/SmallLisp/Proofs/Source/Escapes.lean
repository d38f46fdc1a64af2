import SmallLisp.Proofs.Source.Grammar
import SmallLisp.Text.Quoted

/-!
# Quoted strings and their escapes

The written form of a string uses more escapes than the reader knows: of a backslash and any other
character the reader takes the character. `Quoted.reread` says what becomes of a character that is
written and read. The result is the character itself, but for the control characters other than tab,
line feed and carriage return (`Quoted.IsLost`): of their escapes only the letters are left.

So a string reads back if it has none of these (`flatMap_reread_eq_iff`), and else as a different
one, since no control character is among those letters.
-/

namespace SmallLisp

namespace Text.Quoted

/-- The control characters that have no escape known to the reader. -/
def IsLost (c : Char) : Prop :=
  c.toNat < 0x20 ∧ c ≠ '\t' ∧ c ≠ '\n' ∧ c ≠ '\r'

instance (c : Char) : Decidable (IsLost c) :=
  inferInstanceAs (Decidable (_ ∧ _))

/-- What is read where a character was written in quotes. -/
def reread (c : Char) : List Char :=
  if IsLost c then (escape c).tail else [c]

theorem reread_of_not_isLost {c : Char} (h : ¬ IsLost c) : reread c = [c] :=
  if_neg h

/-- The escape of a lost character is a backslash and letters, of which the first one is read in its
place. -/
theorem exists_escape_of_isLost {c : Char} (h : IsLost c) :
    ∃ letter letters, escape c = '\x5c' :: letter :: letters ∧
      Source.unescape letter = letter ∧ c ≠ letter ∧
      ∀ d ∈ letters, d ≠ '\x22' ∧ d ≠ '\x5c' := by
  obtain ⟨hcontrol, htab, hnewline, hreturn⟩ := h
  -- the digits of a code are read as themselves
  have hdigit : ∀ n, hexDigit n ≠ '\x22' ∧ hexDigit n ≠ '\x5c' := by
    have hall : ∀ m < 16, Nat.digitChar m ≠ '\x22' ∧ Nat.digitChar m ≠ '\x5c' := by decide
    exact fun n => hall _ (Nat.mod_lt n (by decide))
  unfold escape
  -- a control character is written with the letter `b` or `f`, or with its code behind a `u`
  split
  · exact absurd hcontrol (by decide)
  · exact absurd hcontrol (by decide)
  · exact ⟨'b', [], rfl, rfl, by decide, nofun⟩
  · exact ⟨'f', [], rfl, rfl, by decide, nofun⟩
  · exact absurd rfl hnewline
  · exact absurd rfl hreturn
  · exact absurd rfl htab
  · rw [if_pos hcontrol]
    refine ⟨'u', _, rfl, rfl, ?_, ?_⟩
    · rintro rfl
      exact absurd hcontrol (by decide)
    · simp [hdigit]

/-- **Exactly the texts without lost characters are read as they were.** -/
theorem flatMap_reread_eq_iff {cs : List Char} :
    cs.flatMap reread = cs ↔ ∀ c ∈ cs, ¬ IsLost c := by
  induction cs with
  | nil => exact ⟨fun _ => nofun, fun _ => rfl⟩
  | cons c cs ih =>
    rw [List.flatMap_cons, List.forall_mem_cons]
    constructor
    · intro h
      -- a lost character is read back as the letter of its escape
      have hc : ¬ IsLost c := by
        intro hlost
        obtain ⟨letter, letters, hescape, -, hne, -⟩ := exists_escape_of_isLost hlost
        rw [reread, if_pos hlost, hescape] at h
        exact hne (List.cons.inj h).1.symm
      rw [reread_of_not_isLost hc] at h
      exact ⟨hc, ih.1 (List.cons.inj h).2⟩
    · rintro ⟨hc, hcs⟩
      rw [reread_of_not_isLost hc, ih.2 hcs]
      rfl

end Text.Quoted

namespace Source

open Text

/-! ### Reading a quoted string -/

theorem StringBody.append {body text body' text' : List Char} (h : StringBody body text)
    (h' : StringBody body' text') : StringBody (body ++ body') (text ++ text') := by
  induction h with
  | nil => exact h'
  | plain hquote hescape _ ih => exact .plain hquote hescape ih
  | escaped _ ih => exact .escaped ih

/-- Characters that are neither quotes nor backslashes stand for themselves. -/
theorem stringBody_self {cs : List Char} (h : ∀ c ∈ cs, c ≠ '\x22' ∧ c ≠ '\x5c') :
    StringBody cs cs := by
  induction cs with
  | nil => exact .nil
  | cons c cs ih =>
    obtain ⟨⟨hquote, hescape⟩, hcs⟩ := List.forall_mem_cons.1 h
    exact .plain hquote hescape (ih hcs)

/-- A character as it is written between quotes. -/
theorem stringBody_escape (c : Char) : StringBody (Quoted.escape c) (Quoted.reread c) := by
  by_cases hlost : Quoted.IsLost c
  · obtain ⟨letter, letters, hescape, hletter, -, hletters⟩ := Quoted.exists_escape_of_isLost hlost
    have hbody := StringBody.escaped (c := letter) (stringBody_self hletters)
    rw [hletter] at hbody
    rw [Quoted.reread, if_pos hlost, hescape]
    exact hbody
  · rw [Quoted.reread_of_not_isLost hlost]
    unfold Quoted.escape
    -- what is not lost is written as it is, or with an escape the reader knows
    split
    · exact .escaped .nil
    · exact .escaped .nil
    · exact absurd (by decide) hlost
    · exact absurd (by decide) hlost
    · exact .escaped .nil
    · exact .escaped .nil
    · exact .escaped .nil
    · next hquote hescape _ _ hnewline hreturn htab =>
      rw [if_neg fun hcontrol => hlost ⟨hcontrol, htab, hnewline, hreturn⟩]
      exact .plain hquote hescape .nil

/-- A quoted string is one token, which denotes what is read for each of its characters. -/
theorem spelling_quote (cs : List Char) :
    Spelling (.string (cs.flatMap Quoted.reread)) (Quoted.quote cs) := by
  refine .string ?_
  induction cs with
  | nil => exact .nil
  | cons c cs ih => exact (stringBody_escape c).append ih

end Source

end SmallLisp
