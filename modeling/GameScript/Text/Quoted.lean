import GameScript.Text.Hex

/-!
# Quoted text in listings

A text operand stands between single quotes on one line. Backslash, quote and control characters
are written as escapes, so the closing quote is the first one that no escape produced.
-/
namespace GameScript

/-- Whether a character is a control character: the ranges U+0000 to U+001F and U+007F to
U+009F. -/
def isControl (c : Char) : Bool := c.toNat < 0x20 || (0x7F ≤ c.toNat && c.toNat ≤ 0x9F)

/-- The written form of one character. Control characters without a letter of their own take two
upper-case hexadecimal digits. -/
def escapeChar (c : Char) : List Char :=
  match c with
  | '\\' => ['\\', '\\']
  | '\'' => ['\\', '\'']
  | '\n' => ['\\', 'n']
  | '\r' => ['\\', 'r']
  | '\t' => ['\\', 't']
  | '\x00' => ['\\', '0']
  | c =>
    if isControl c then
      '\\' :: 'x' :: ((Nat.toDigits 16 c.toNat).leftpad 2 '0').map Char.toUpper
    else [c]

/-- The text between the quotes of an operand. -/
def escape (s : String) : String := String.ofList (s.toList.flatMap escapeChar)

end GameScript
