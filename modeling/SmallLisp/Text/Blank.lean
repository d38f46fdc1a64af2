/-!
# Blank characters

The characters that separate words of the language: the ASCII blanks, the Unicode space separators,
the line and paragraph separators, and the byte order mark. `Blank.ranges` is the whole table, in
ascending order.
-/

namespace SmallLisp.Text

/-- The blank characters as inclusive ranges of code points, ascending. -/
def Blank.ranges : List (Nat × Nat) :=
  [(0x09, 0x0D), (0x20, 0x20), (0xA0, 0xA0), (0x1680, 0x1680), (0x2000, 0x200A),
   (0x2028, 0x2029), (0x202F, 0x202F), (0x205F, 0x205F), (0x3000, 0x3000), (0xFEFF, 0xFEFF)]

/-- Whether a character separates words. -/
def isBlank (c : Char) : Bool :=
  Blank.ranges.any fun r => r.1 ≤ c.toNat && c.toNat ≤ r.2

/-- A line feed separates words. -/
@[simp] theorem isBlank_newline : isBlank '\n' = true := by decide

/-- A space separates words. -/
@[simp] theorem isBlank_space : isBlank ' ' = true := by decide

end SmallLisp.Text
