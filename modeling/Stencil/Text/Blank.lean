import Stencil.Text.Ranges
/-!
Blanks: the characters that may stand freely between the lexemes of a tag. They are the
`White_Space` characters of Unicode; a zero-width space or a byte order mark is not one of them.
-/
set_option autoImplicit false

namespace Stencil.Text

def blankRanges : List (Nat × Nat) :=
  [(0x9, 0xD), (0x20, 0x20), (0x85, 0x85), (0xA0, 0xA0), (0x1680, 0x1680), (0x2000, 0x200A),
    (0x2028, 0x2029), (0x202F, 0x202F), (0x205F, 0x205F), (0x3000, 0x3000)]

def isBlank (c : Char) : Bool := inRanges blankRanges c.toNat

example : ['\t', '\n', '\x0b', ' ', '\u00a0', '\u3000'].all isBlank = true := by decide
example : ['\x1c', '\u200b', '\ufeff', '\u180e'].any isBlank = false := by decide

def leadingBlanks (s : List Char) : List Char := s.takeWhile isBlank

def dropBlanks (s : List Char) : List Char := s.dropWhile isBlank

theorem leadingBlanks_append_dropBlanks (s : List Char) : leadingBlanks s ++ dropBlanks s = s :=
  List.takeWhile_append_dropWhile

theorem length_dropBlanks_le (s : List Char) : (dropBlanks s).length ≤ s.length :=
  (List.dropWhile_sublist _).length_le

end Stencil.Text
