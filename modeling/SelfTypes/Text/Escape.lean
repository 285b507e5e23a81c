/-!
# Escaped text

The spelling of characters inside quoted literals. Printable ASCII stands for itself, except the
two quotes and the backslash; tab, carriage return and line feed have short escapes; every other
character is spelled by its code in hexadecimal.
-/

namespace SelfTypes.Text

/-- The escape of a character by its code: lower-case hexadecimal without padding. -/
def escapeCode (c : Char) : List Char :=
  "\\u\x7b".toList ++ Nat.toDigits 16 c.toNat ++ ['\x7d']

/-- The spelling of one character inside quotes. -/
def escapeChar (c : Char) : List Char :=
  match c with
  | '\t' => ['\\', 't']
  | '\r' => ['\\', 'r']
  | '\n' => ['\\', 'n']
  | '\'' => ['\\', '\'']
  | '"' => ['\\', '"']
  | '\\' => ['\\', '\\']
  | c => if 0x20 ≤ c.toNat ∧ c.toNat ≤ 0x7e then [c] else escapeCode c

/-- The spelling of a string inside quotes. -/
def escape (s : String) : String :=
  String.ofList (s.toList.flatMap escapeChar)

end SelfTypes.Text
