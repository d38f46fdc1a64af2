/-!
# Quoted strings

The written form of a string: double quotes around it, short escapes for the seven characters that
have one, and `\u00xx` for the other characters below U+0020. Everything else stands for itself.
-/

namespace SmallLisp.Text.Quoted

/-- A hexadecimal digit, in lower case. -/
def hexDigit (n : Nat) : Char :=
  Nat.digitChar (n % 16)

/-- The written form of one character inside the quotes. -/
def escape (c : Char) : List Char :=
  match c with
  | '\x22' => ['\x5c', '\x22']
  | '\x5c' => ['\x5c', '\x5c']
  | '\x08' => ['\x5c', 'b']
  | '\x0c' => ['\x5c', 'f']
  | '\n' => ['\x5c', 'n']
  | '\r' => ['\x5c', 'r']
  | '\t' => ['\x5c', 't']
  | c =>
    if c.toNat < 0x20 then ['\x5c', 'u', '0', '0', hexDigit (c.toNat / 16), hexDigit c.toNat]
    else [c]

/-- The written form of a text, with its quotes. -/
def quote (cs : List Char) : List Char :=
  '\x22' :: (cs.flatMap escape ++ ['\x22'])

end SmallLisp.Text.Quoted
