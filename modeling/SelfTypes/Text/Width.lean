/-!
# Display width

The number of columns a text takes up. A text of ASCII characters takes one column for each. In
any other text a combining mark takes none, an ideograph and its like two, and the rest one,
control characters included; a carriage return and the line feed after it share one column.
-/

namespace SelfTypes.Text

/-- Blocks of characters without a column of their own: combining marks, joiners and variation
selectors. -/
def zeroWidthRanges : List (Nat × Nat) :=
  [(0x0300, 0x036f), (0x0483, 0x0489), (0x0591, 0x05bd), (0x0610, 0x061a), (0x064b, 0x065f),
   (0x1ab0, 0x1aff), (0x1dc0, 0x1dff), (0x200b, 0x200f), (0x202a, 0x202e), (0x2060, 0x2064),
   (0x20d0, 0x20ff), (0xfe00, 0xfe0f), (0xfe20, 0xfe2f), (0xfeff, 0xfeff), (0xe0100, 0xe01ef)]

/-- Blocks of characters that take two columns: ideographs, syllables, kana, full-width forms and
pictographs. -/
def wideRanges : List (Nat × Nat) :=
  [(0x1100, 0x115f), (0x2e80, 0x303e), (0x3041, 0x33ff), (0x3400, 0x4dbf), (0x4e00, 0x9fff),
   (0xa000, 0xa4cf), (0xa960, 0xa97c), (0xac00, 0xd7a3), (0xf900, 0xfaff), (0xfe30, 0xfe6f),
   (0xff01, 0xff60), (0xffe0, 0xffe6), (0x1f300, 0x1f64f), (0x1f680, 0x1f6ff),
   (0x1f900, 0x1f9ff), (0x20000, 0x2fffd), (0x30000, 0x3fffd)]

/-- Whether a character belongs to one of the blocks. -/
def inRanges (ranges : List (Nat × Nat)) (c : Char) : Bool :=
  ranges.any fun r => r.1 ≤ c.toNat && c.toNat ≤ r.2

/-- The columns of one character of a text that is not all ASCII. -/
def charWidth (c : Char) : Nat :=
  if inRanges zeroWidthRanges c then 0
  else if inRanges wideRanges c then 2
  else 1

/-- The columns of the characters of a text that is not all ASCII. -/
def columns : List Char → Nat
  | [] => 0
  | '\r' :: '\n' :: cs => 1 + columns cs
  | c :: cs => charWidth c + columns cs

/-- The columns of a text. -/
def displayWidth (s : String) : Nat :=
  if s.toList.all (·.toNat < 0x80) then s.length else columns s.toList

end SelfTypes.Text
